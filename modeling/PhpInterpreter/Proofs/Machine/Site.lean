import PhpInterpreter.Proofs.Machine.Landing
import PhpInterpreter.Proofs.Machine.Operand
import PhpInterpreter.Proofs.Machine.Unplaced

/-!
Sites of errors. A computation that makes calls fails with a call, and then with the same error; or
it fails by itself, and then its error has no place yet. The lemmas below carry both through the
steps that the bodies of evaluation are made of.
-/

namespace PhpInterpreter

open Run

/-- A computation that is known to return. -/
theorem ends_of_ok {ε σ α : Type} {act : ExceptT ε (StateM σ) α} {s t : σ} {a : α}
    {Q : α → σ → Prop} {E : ε → σ → Prop} (h : act.run.run s = (.ok a, t)) (hQ : Q a t) :
    Ends act s Q E := by
  rw [Ends, h]
  exact hQ

/-- The machine with a node on top of its stack. -/
def Machine.facing (m : Machine) (t : Term) (intent? : Option Intent) : Machine :=
  { m with stack := .pending t intent? :: m.stack }

/-- Where an error gets its place: at a node that is evaluated, or at a level of a target that is
resolved. -/
inductive Site
  | node (t : Term) (intent? : Option Intent) (m : Machine)
  | level (level : Level) (l? : Option Location) (m : Machine)

namespace Site

def place? : Site → Option Place
  | node t _ _ => t.head?.map (·.place)
  | level v _ _ => some v.place

/-- Evaluating the node, or going down the level, stops with the error. -/
def Fails (e : RunError) : Site → Prop
  | node t intent? m => (evaluate.outcome (m.facing t intent?)).1 = .error (.error e)
  | level v l? m => ((located v.place (descend v l?)).outcome m).1 = .error (.error e)

end Site

namespace Run

variable {α β : Type} {t u : Term} {intent? j? : Option Intent} {m m₁ : Machine} {v : View}
  {e : RunError} {C C' : Site → Prop}

/-- Evaluating a node gives a value and leads to a machine. -/
def Obtains (t : Term) (intent? : Option Intent) (m : Machine) (v : View) (m₁ : Machine) : Prop :=
  evaluate.outcome (m.facing t intent?) = (.ok (), { m₁ with stack := .value v :: m₁.stack })

/-! ## Failing with a call -/

/-- From `m`, the computation stops with the error. -/
def StopsWith (act : Run α) (m : Machine) (e : RunError) : Prop :=
  Ends act m (fun _ _ => False) fun f _ => f = .error e

theorem stopsWith_iff {act : Run α} :
    StopsWith act m e ↔ (act.outcome m).1 = .error (.error e) := by
  simp only [StopsWith, Ends, outcome]
  generalize act.run.run m = p
  obtain ⟨r, t⟩ := p
  cases r with
  | ok a => simp
  | error f => simp

/-- What stops first decides how the whole stops. -/
theorem StopsWith.ends {act : Run α} {R : α → Machine → Prop} (h : StopsWith act m e) :
    Ends act m R fun f _ => f = .error e :=
  h.mono (fun _ _ hf => hf.elim) fun _ _ hf => hf

theorem stopsWith_node (h : (Site.node t intent? m).Fails e) :
    StopsWith (within t (t.eval intent?)) m e := stopsWith_iff.2 h

theorem stopsWith_resume (h : (Site.node t intent? m).Fails e) :
    StopsWith (resume (within t (t.eval intent?))) (m.facing t intent?) e := by
  simp only [StopsWith, resume, ends_bind, ends_pop (m := m.facing t intent?) rfl]
  exact stopsWith_node h

theorem ends_of_obtains {R : View → Machine → Prop} {E : Fault → Machine → Prop}
    (h : Obtains t intent? m v m₁) (hR : R v m₁) :
    Ends (resume (within t (t.eval intent?))) (m.facing t intent?)
      (fun _ m' => Ends popView m' R E) E := by
  have hresume : (resume (within t (t.eval intent?))).outcome (m.facing t intent?) =
      (.ok (), { m₁ with stack := .value v :: m₁.stack }) := h
  exact ends_of_ok hresume ((ends_popView rfl).2 hR)

theorem stopsWith_holding {act : Run Unit} (h : StopsWith act { m with held := v :: m.held } e) :
    StopsWith (holding v act) m e :=
  ends_holding (fun _ _ _ hf => hf) (h.mono (fun _ _ hf => hf.elim) fun _ _ hf => hf)

theorem stopsWith_held (h : (Site.node t intent? { m with held := v :: m.held }).Fails e) :
    StopsWith (holding v (resume (within t (t.eval intent?)))) (m.facing t intent?) e :=
  stopsWith_holding (stopsWith_resume (m := { m with held := v :: m.held }) h)

theorem stopsWith_located {act : Run α} {p : Place} (he : e.place?.isSome) (h : StopsWith act m e) :
    StopsWith (located p act) m e := by
  refine (ends_located p act).2 (h.mono (fun _ _ hf => hf) ?_)
  rintro _ _ rfl
  simp [Fault.locate, RunError.locate, he]

/-! ## Failing by itself -/

/-- The fault has no place yet, or a call failed with it. -/
def Traced (C : Site → Prop) (f : Fault) (_ : Machine) : Prop :=
  f.Placeless ∨ ∃ e s, f = .error e ∧ C s ∧ s.Fails e

theorem Traced.mono {f : Fault} (h : Traced C f m) (hC : ∀ s, C s → C' s) : Traced C' f m₁ := by
  rcases h with hf | ⟨e, s, hf, hs, hfails⟩
  · exact .inl hf
  · exact .inr ⟨e, s, hf, hC s hs, hfails⟩

/-- Calls of a part are calls of the whole. -/
theorem traced_mono {act : Run α} {R : α → Machine → Prop} (h : Ends act m R (Traced C))
    (hC : ∀ s, C s → C' s) : Ends act m R (Traced C') :=
  h.mono (fun _ _ ha => ha) fun _ _ hf => hf.mono hC

/-- After a part, the whole goes on from the machine the part leads to. -/
theorem traced_then {act : Run α} {R : α → Machine → Prop}
    (h : Ends act m (fun _ _ => True) (Traced C)) (hC : ∀ s, C s → C' s)
    (hR : ∀ a m₁, act.outcome m = (.ok a, m₁) → R a m₁) : Ends act m R (Traced C') :=
  (h.and (ends_run act m)).mono (fun a m₁ ha => hR a m₁ ha.2) fun _ _ hf => hf.1.mono hC

theorem Unplaced.traced {act : Run α} (h : Unplaced act) (C : Site → Prop) (m : Machine) :
    Ends act m (fun _ _ => True) (Traced C) :=
  (h m).mono (fun _ _ _ => trivial) fun _ _ hf => .inl hf

/-- What evaluates no node goes on, from the machine it leads to, or has no place. -/
theorem Unplaced.andThen {act : Run α} {R : α → Machine → Prop} (h : Unplaced act)
    (hR : ∀ a m₁, act.outcome m = (.ok a, m₁) → R a m₁) : Ends act m R (Traced C) :=
  ((h m).and (ends_run act m)).mono (fun a m₁ ha => hR a m₁ ha.2) fun _ _ hf => .inl hf.1

theorem traced_node (hC : C (.node t intent? m)) :
    Ends (within t (t.eval intent?)) m (fun _ _ => True) (Traced C) := by
  refine (ends_run _ m).mono (fun _ _ _ => trivial) fun f _ hrun => ?_
  cases f with
  | crash c => exact .inl trivial
  | error e => exact .inr ⟨e, _, rfl, hC, congrArg Prod.fst hrun⟩

theorem traced_resume (hC : C (.node t intent? m)) :
    Ends (resume (within t (t.eval intent?))) (m.facing t intent?) (fun _ _ => True)
      (Traced C) := by
  simp only [resume, ends_bind, ends_pop (m := m.facing t intent?) rfl]
  exact traced_node hC

/-- A node that is not to be written gives a value, or its call failed. The items below it and what
is held follow the writes. -/
theorem traced_obtains {R : View → Machine → Prop} (hread : intent? ≠ some .write)
    (hC : C (.node t intent? m))
    (hR : ∀ v m₁ ws, Obtains t intent? m v m₁ → m₁.stack = m.stack.map (Item.followAll ws) →
      R v m₁) :
    Ends (resume (within t (t.eval intent?))) (m.facing t intent?)
      (fun _ m' => Ends popView m' R (Traced C)) (Traced C) := by
  refine ((ends_resume_value rfl hread).and (traced_resume hC)).mono ?_ fun _ _ hf => hf.2
  rintro - m' ⟨⟨hrun, v, ws, -, hstack, -⟩, -⟩
  refine (ends_popView hstack).2 (hR v _ ws ?_ rfl)
  rw [Obtains, hrun]
  obtain ⟨env, stack, held, output, log⟩ := m'
  obtain rfl : stack = _ := hstack
  rfl

/-- A node that waits below still waits after that. -/
theorem traced_obtains_facing {R : View → Machine → Prop} (hread : intent? ≠ some .write)
    (hC : C (.node t intent? (m.facing u j?)))
    (hR : ∀ v (m₁ : Machine), Obtains t intent? (m.facing u j?) v (m₁.facing u j?) →
      R v (m₁.facing u j?)) :
    Ends (resume (within t (t.eval intent?))) ((m.facing u j?).facing t intent?)
      (fun _ m' => Ends popView m' R (Traced C)) (Traced C) := by
  refine traced_obtains hread hC fun v m₁ ws hv hstack => ?_
  have hfacing : m₁ = Machine.facing { m₁ with stack := m.stack.map (Item.followAll ws) } u j? := by
    obtain ⟨env, stack, held, output, log⟩ := m₁
    obtain rfl : stack = _ := hstack
    rw [Machine.facing, Machine.facing, List.map_cons, Item.followAll_pending]
  rw [hfacing] at hv ⊢
  exact hR v _ hv

theorem traced_holding {act : Run Unit} {R : View → Machine → Prop} (hR : ∀ w m', R w m')
    (h : Ends act { m with held := v :: m.held } (fun _ _ => True) (Traced C)) :
    Ends (holding v act) m R (Traced C) := by
  simp only [Ends, holding, ExceptT.run, ExceptT.mk, StateT.run] at h ⊢
  generalize act { m with held := v :: m.held } = p at h ⊢
  obtain ⟨r, t⟩ := p
  cases ht : t.held <;> cases r <;> simp only [ht] <;> first | exact hR _ _ | exact h

theorem traced_held {R : View → Machine → Prop} (hR : ∀ w m', R w m')
    (hC : C (.node t intent? { m with held := v :: m.held })) :
    Ends (holding v (resume (within t (t.eval intent?)))) (m.facing t intent?) R (Traced C) :=
  traced_holding hR (traced_resume (m := { m with held := v :: m.held }) hC)

/-! ## Lists -/

/-- A list is gone through by `step`, and one of the steps makes the call. -/
inductive InTurn {α β : Type} (step : β → α → Run β) (call : β → α → Machine → Site → Prop) :
    List α → β → Machine → Site → Prop
  | here {x : α} {rest : List α} {b : β} {m : Machine} {s : Site} (hs : call b x m s) :
    InTurn step call (x :: rest) b m s
  | there {x : α} {rest : List α} {b b' : β} {m m₁ : Machine} {s : Site}
    (hx : (step b x).outcome m = (.ok b', m₁)) (hs : InTurn step call rest b' m₁ s) :
    InTurn step call (x :: rest) b m s

section

variable {step : β → α → Run β} {call : β → α → Machine → Site → Prop} {xs : List α} {b : β}
  {s : Site}

theorem InTurn.stopsWith (h : InTurn step call xs b m s)
    (hcall : ∀ b x m, call b x m s → StopsWith (step b x) m e) :
    StopsWith (xs.foldlM step b) m e := by
  induction h with
  | here hs =>
    rw [List.foldlM_cons, StopsWith, ends_bind]
    exact (hcall _ _ _ hs).ends
  | there hx hs ih =>
    rw [List.foldlM_cons, StopsWith, ends_bind]
    exact ends_of_ok hx (ih hcall)

theorem traced_inTurn
    (hstep : ∀ b, ∀ x ∈ xs, ∀ m, Ends (step b x) m (fun _ _ => True) (Traced (call b x m))) :
    Ends (xs.foldlM step b) m (fun _ _ => True) (Traced (InTurn step call xs b m)) := by
  induction xs generalizing b m with
  | nil => exact trivial
  | cons x rest ih =>
    rw [List.foldlM_cons, ends_bind]
    refine traced_then (hstep b x List.mem_cons_self m) (fun _ => .here) fun b' m₁ hrun => ?_
    refine traced_mono (ih fun b x hx m => ?_) fun _ => .there hrun
    exact hstep b x (List.mem_cons_of_mem _ hx) m

end

end Run

end PhpInterpreter
