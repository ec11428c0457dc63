import PhpInterpreter.Proofs.Scope.Binding

/-!
Two environments side by side. A bond says how the environments of two runs compare, which cells of
the one stand for which of the other, and that the operations of evaluation do alike in both. A
guard is about one environment; it bonds environments that are the same.
-/

namespace PhpInterpreter

/-! ## Two computations -/

section

variable {ε σ α β γ δ : Type} {act : ExceptT ε (StateM σ) α} {act' : ExceptT ε (StateM σ) β}
  {s s' : σ} {Q : α → β → σ → σ → Prop} {E : ε → ε → σ → σ → Prop}

/-- From `s` and `s'` both computations return, with `Q`, or both stop, with `E`. -/
def Paired (act : ExceptT ε (StateM σ) α) (act' : ExceptT ε (StateM σ) β) (s s' : σ)
    (Q : α → β → σ → σ → Prop) (E : ε → ε → σ → σ → Prop) : Prop :=
  Ends act s (fun a t => Ends act' s' (fun b t' => Q a b t t') fun _ _ => False)
    fun f t => Ends act' s' (fun _ _ => False) fun f' t' => E f f' t t'

theorem paired_iff : Paired act act' s s' Q E ↔
    (∃ a b t t', act.run.run s = (.ok a, t) ∧ act'.run.run s' = (.ok b, t') ∧ Q a b t t') ∨
      ∃ f f' t t', act.run.run s = (.error f, t) ∧ act'.run.run s' = (.error f', t') ∧
        E f f' t t' := by
  constructor
  · intro h
    simp only [Paired, Ends] at h
    cases hr : act.run.run s with
    | mk r t =>
      cases hr' : act'.run.run s' with
      | mk r' t' =>
        rw [hr, hr'] at h
        cases r with
        | ok a =>
          cases r' with
          | ok b => exact .inl ⟨a, b, t, t', rfl, rfl, h⟩
          | error f' => exact h.elim
        | error f =>
          cases r' with
          | ok b => exact h.elim
          | error f' => exact .inr ⟨f, f', t, t', rfl, rfl, h⟩
  · rintro (⟨a, b, t, t', hr, hr', h⟩ | ⟨f, f', t, t', hr, hr', h⟩)
    · simpa only [Paired, Ends, hr, hr'] using h
    · simpa only [Paired, Ends, hr, hr'] using h

theorem Paired.mono {Q' : α → β → σ → σ → Prop} {E' : ε → ε → σ → σ → Prop}
    (h : Paired act act' s s' Q E) (hQ : ∀ a b t t', Q a b t t' → Q' a b t t')
    (hE : ∀ f f' t t', E f f' t t' → E' f f' t t') : Paired act act' s s' Q' E' :=
  Ends.mono h (fun a t h => h.mono (fun b t' h => hQ a b t t' h) fun _ _ h => h) fun f t h =>
    h.mono (fun _ _ h => h) fun f' t' h => hE f f' t t' h

theorem Paired.bind {f : α → ExceptT ε (StateM σ) γ} {f' : β → ExceptT ε (StateM σ) δ}
    {R : γ → δ → σ → σ → Prop}
    (h : Paired act act' s s' (fun a b t t' => Paired (f a) (f' b) t t' R E) E) :
    Paired (act >>= f) (act' >>= f') s s' R E := by
  simp only [Paired, ends_bind]
  rcases paired_iff.1 h with ⟨a, b, t, t', hr, hr', hrest⟩ | ⟨e, e', t, t', hr, hr', hrest⟩
  · simp only [Ends, hr, hr']
    exact hrest
  · simp only [Ends, hr, hr']
    exact hrest

/-- A computation beside itself. -/
theorem Ends.paired {Q : α → α → σ → σ → Prop}
    (h : Ends act s (fun a t => Q a a t t) fun f t => E f f t t) : Paired act act s s Q E := by
  simp only [Paired, Ends] at h ⊢
  generalize act.run.run s = p at h ⊢
  obtain ⟨r, t⟩ := p
  cases r <;> exact h

/-- Both computations return. -/
theorem Ends.paired_returns {P : α → σ → Prop} {P' : β → σ → Prop}
    (h : Ends act s P fun _ _ => False) (h' : Ends act' s' P' fun _ _ => False)
    (hQ : ∀ a b t t', P a t → P' b t' → Q a b t t') : Paired act act' s s' Q E := by
  obtain ⟨a, t, hr, hP⟩ := h.returns
  obtain ⟨b, t', hr', hP'⟩ := h'.returns
  exact paired_iff.2 (.inl ⟨a, b, t, t', hr, hr', hQ a b t t' hP hP'⟩)

end

/-! ## Locations -/

/-- Locations in cells that stand for each other. -/
inductive Location.Alike (cells : Int → Int → Int → Int → Prop) : Location → Location → Prop
  | mk {i x i' x' : Int} (h : cells i x i' x') (path : List Key) (char? : Option Int) :
      Alike cells ⟨i, x, path, char?⟩ ⟨i', x', path, char?⟩

namespace Location.Alike

variable {cells : Int → Int → Int → Int → Prop} {l l' : Location}

theorem child (h : l.Alike cells l') (k : Key) : (l.child k).Alike cells (l'.child k) := by
  cases h with
  | mk hcells path char? => exact .mk hcells _ _

theorem atChar (h : l.Alike cells l') (n : Int) : (l.atChar n).Alike cells (l'.atChar n) := by
  cases h with
  | mk hcells path char? => exact .mk hcells _ _

theorem container (h : l.Alike cells l') : l.container.Alike cells l'.container := by
  cases h with
  | mk hcells path char? => exact .mk hcells _ _

end Location.Alike

/-! ## Environments -/

/-- Both operations return, with `Q`, or both fail for the same reason. Either way the environments
still compare. -/
def Scoped.Concur {α β : Type} (envs : Environment → Environment → Prop) (act : Scoped α)
    (act' : Scoped β) (e e' : Environment) (Q : α → β → Environment → Prop) : Prop :=
  Paired act act' e e' (fun a b u u' => envs u u' ∧ Q a b u) fun b b' u u' => b' = b ∧ envs u u'

/-- How the environments of two runs compare. Cells, given by scope and slot, stand for each other.
Evaluation keeps this as long as it only writes to cells of names it resolved and its global names
are among the given ones. -/
structure Bond where
  envs : Environment → Environment → Prop
  cells : Int → Int → Int → Int → Prop
  writable : Environment → Int → Int → Prop
  global : String → Prop
  unique : ∀ {i x i' x' j y j' y'}, cells i x i' x' → cells j y j' y' → (x = y ↔ x' = y')
  value : ∀ {e e' i x i' x'}, envs e e' → cells i x i' x' → e'.value? i' x' = e.value? i x
  lookup : ∀ {e e'} (name : String), envs e e' →
    Scoped.Concur envs (Scoped.lookup name none) (Scoped.lookup name none) e e'
      fun l? l?' _ => Option.Rel (Location.Alike cells) l? l?'
  declare : ∀ {e e'} (name : String), envs e e' →
    Scoped.Concur envs (Scoped.declare name none) (Scoped.declare name none) e e'
      fun l l' u => l.Alike cells l' ∧ writable u l.scope l.slot
  unset : ∀ {e e'} (name : String), envs e e' →
    Scoped.Concur envs (Scoped.unset name none) (Scoped.unset name none) e e' fun _ _ _ => True
  bind : ∀ {e e' l l'} (name : String), envs e e' → l.Alike cells l' →
    writable e l.scope l.slot → l.path = [] → l.char? = none →
    Scoped.Concur envs (Scoped.bind name l none) (Scoped.bind name l' none) e e' fun _ _ _ => True
  bindGlobal : ∀ {e e' name}, envs e e' → global name →
    Scoped.Concur envs (Scoped.bindGlobal name) (Scoped.bindGlobal name) e e' fun _ _ _ => True
  store : ∀ {e e' l l'} (v : Value), envs e e' → l.Alike cells l' → writable e l.scope l.slot →
    Scoped.Concur envs (Scoped.store l v) (Scoped.store l' v) e e'
      fun _ _ u => writable u l.scope l.slot

theorem Environment.load_eq_of_value? {e e' : Environment} {i x i' x' : Int} {path : List Key}
    {char? : Option Int} (h : e'.value? i' x' = e.value? i x) :
    e'.load ⟨i', x', path, char?⟩ = e.load ⟨i, x, path, char?⟩ := by
  simp only [value?] at h
  simp only [load, h]

theorem Bond.load (B : Bond) {e e' : Environment} {l l' : Location} (h : B.envs e e')
    (hl : l.Alike B.cells l') : e'.load l' = e.load l := by
  cases hl with
  | mk hcells path char? => exact Environment.load_eq_of_value? (B.value h hcells)

/-- A condition on environments that evaluation keeps, as long as it only writes the slots of names
it resolved and its global names are among the given ones. -/
structure Guard where
  env : Environment → Prop
  slot : Environment → Int → Prop
  global : String → Prop
  declare : ∀ {e} (name : String), env e →
    Ends (Scoped.declare name none) e (fun l e' => env e' ∧ slot e' l.slot) fun _ e' => env e'
  unset : ∀ {e} (name : String), env e →
    Ends (Scoped.unset name none) e (fun _ e' => env e') fun _ e' => env e'
  bind : ∀ {e l} (name : String), env e → slot e l.slot →
    Ends (Scoped.bind name l none) e (fun _ e' => env e') fun _ e' => env e'
  bindGlobal : ∀ {e name}, env e → global name →
    Ends (Scoped.bindGlobal name) e (fun _ e' => env e') fun _ e' => env e'
  store : ∀ {e l} (v : Value), env e → slot e l.slot →
    Ends (Scoped.store l v) e (fun _ e' => env e' ∧ slot e' l.slot) fun _ e' => env e'

namespace Guard

/-- Nothing is guarded. -/
def none : Guard where
  env _ := True
  slot _ _ := True
  global _ := True
  declare _ _ := (ends_trivial _ _).mono (fun _ _ _ => ⟨trivial, trivial⟩) fun _ _ h => h
  unset _ _ := ends_trivial _ _
  bind _ _ _ := ends_trivial _ _
  bindGlobal _ _ := ends_trivial _ _
  store _ _ _ := (ends_trivial _ _).mono (fun _ _ _ => ⟨trivial, trivial⟩) fun _ _ h => h

/-- A cell stands for itself. -/
def sameCell (i x i' x' : Int) : Prop := i' = i ∧ x' = x

theorem alike_sameCell {l l' : Location} : l.Alike sameCell l' ↔ l' = l := by
  constructor
  · rintro ⟨⟨rfl, rfl⟩, path, char?⟩
    rfl
  · rintro rfl
    exact .mk ⟨rfl, rfl⟩ _ _

theorem rel_sameCell {l? l?' : Option Location} :
    Option.Rel (Location.Alike sameCell) l? l?' ↔ l?' = l? := by
  cases l? <;> cases l?' <;> simp [alike_sameCell]

variable (g : Guard) {e : Environment} {α : Type}

theorem ends_lookup (h : g.env e) (name : String) :
    Ends (Scoped.lookup name Option.none) e (fun _ e' => g.env e') fun _ e' => g.env e' := by
  rw [Scoped.ends_lookup]
  exact ⟨fun _ => h, fun _ _ => ⟨fun _ => h, fun _ _ => ⟨fun _ => h, fun _ _ => h⟩⟩⟩

/-- An operation beside itself, in one environment. -/
theorem concur {act : Scoped α} {Q : α → α → Environment → Prop}
    (h : Ends act e (fun a e' => g.env e' ∧ Q a a e') fun _ e' => g.env e') :
    Scoped.Concur (fun u u' => u' = u ∧ g.env u) act act e e Q :=
  Ends.paired (h.mono (fun _ _ h => ⟨⟨rfl, h.1⟩, h.2⟩) fun _ _ h => ⟨rfl, rfl, h⟩)

/-- Both runs have one environment. -/
def bond (g : Guard) : Bond where
  envs e e' := e' = e ∧ g.env e
  cells := sameCell
  writable e _ x := g.slot e x
  global := g.global
  unique := by
    rintro i x _ _ j y _ _ ⟨rfl, rfl⟩ ⟨rfl, rfl⟩
    rfl
  value := by
    rintro e _ i x _ _ ⟨rfl, -⟩ ⟨rfl, rfl⟩
    rfl
  lookup := by
    rintro e _ name ⟨rfl, h⟩
    exact g.concur ((g.ends_lookup h name).mono (fun _ _ h => ⟨h, rel_sameCell.2 rfl⟩)
      fun _ _ h => h)
  declare := by
    rintro e _ name ⟨rfl, h⟩
    exact g.concur ((g.declare name h).mono (fun _ _ h => ⟨h.1, alike_sameCell.2 rfl, h.2⟩)
      fun _ _ h => h)
  unset := by
    rintro e _ name ⟨rfl, h⟩
    exact g.concur ((g.unset name h).mono (fun _ _ h => ⟨h, trivial⟩) fun _ _ h => h)
  bind := by
    rintro e _ l l' name ⟨rfl, h⟩ hl hslot - -
    obtain rfl := alike_sameCell.1 hl
    exact g.concur ((g.bind name h hslot).mono (fun _ _ h => ⟨h, trivial⟩) fun _ _ h => h)
  bindGlobal := by
    rintro e _ name ⟨rfl, h⟩ hname
    exact g.concur ((g.bindGlobal h hname).mono (fun _ _ h => ⟨h, trivial⟩) fun _ _ h => h)
  store := by
    rintro e _ l l' v ⟨rfl, h⟩ hl hslot
    obtain rfl := alike_sameCell.1 hl
    exact g.concur (g.store v h hslot)

end Guard

end PhpInterpreter
