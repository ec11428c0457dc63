import PhpInterpreter.Proofs.Scope.Operation

/-!
Histories of an environment: any operations one after the other, from the fresh environment, those
that fail included. Every environment of a history is accounted for, and what is gone from it never
comes back under its number.
-/

namespace PhpInterpreter

/-- What can be done to an environment from outside. -/
inductive Action
  | create (name kind : String) (outer? : Option Int)
  | enter (index : Int)
  | leave
  | release (index : Int)
  | declare (name : String) (index? : Option Int)
  | unset (name : String) (index? : Option Int)
  | bindGlobal (name : String)
  | bind (name : String) (l : Location) (index? : Option Int)
  | store (l : Location) (value : Value)
  | newObject (className : String) (index? : Option Int)

namespace Action

/-- The environment after an action, whether it succeeds or not. -/
def apply : Action → Environment → Environment
  | create name kind outer?, e => ((Scoped.create name kind outer?).run.run e).2
  | enter i, e => ((Scoped.enter i).run.run e).2
  | leave, e => (Scoped.leave.run.run e).2
  | release i, e => ((Scoped.release i).run.run e).2
  | declare name i?, e => ((Scoped.declare name i?).run.run e).2
  | unset name i?, e => ((Scoped.unset name i?).run.run e).2
  | bindGlobal name, e => ((Scoped.bindGlobal name).run.run e).2
  | bind name l i?, e => ((Scoped.bind name l i?).run.run e).2
  | store l v, e => ((Scoped.store l v).run.run e).2
  | newObject c i?, e => ((Scoped.newObject c i?).run.run e).2

/-- What a caller observes: released scopes are neither entered nor given names, and a name is
bound to what another name of an unreleased scope stands for at that moment. -/
def Legal (e : Environment) : Action → Prop
  | enter i => e.Unreleased i
  | declare _ i? | unset _ i? => e.Unreleased (i?.getD e.current)
  | bind _ l i? => e.Unreleased (i?.getD e.current) ∧
      ∃ j source, e.Unreleased j ∧ (Scoped.lookup source (some j)).run.run e = (.ok (some l), e)
  | _ => True

end Action

namespace Environment

variable {e e' e₀ e₁ e₂ : Environment} {i j slot : Int} {s t : Scope} {name : String}
  {l : Location}

/-- Legal actions lead from one environment to another. -/
inductive History : Environment → List Action → Environment → Prop
  | nil (e : Environment) : History e [] e
  | cons {e e' : Environment} {a : Action} {actions : List Action} :
      a.Legal e → History (a.apply e) actions e' → History e (a :: actions) e'

/-- The scopes of a kind in the table that were created inside `i`, in creation order. -/
def inside (e : Environment) (i : Int) (kind : ScopeKind) : List Int :=
  (e.scopes.filter fun p => p.2.outer? = some i ∧ p.2.kind = kind).map (·.1)

/-- The tables of an environment agree: each slot is in the one scope that is recorded as its
owner, names lead to slots, no scope in use is released, what is left of a released scope is in use
elsewhere, and scopes list what was created inside them. -/
structure Accounted (e : Environment) : Prop where
  owner_iff : ∀ slot i, Assoc.get? slot e.owners = some i ↔ e.Holds i slot
  one_scope : ∀ slot i j, e.Holds i slot → e.Holds j slot → i = j
  numbered : (∀ i slot, e.Holds i slot → slot < e.nextSlot) ∧
    ∀ i ∈ Assoc.keys e.scopes, i < e.nextScope
  named : ∀ i s, e.scope? i = some s → ∀ name slot, (name, slot) ∈ s.names →
    ∃ o, Assoc.get? slot e.owners = some o
  lookup : ∀ i s, e.scope? i = some s → ∀ name,
    ∃ l?, (Scoped.lookup name (some i)).run.run e = (.ok l?, e)
  bindings : ∀ i s, e.scope? i = some s → ∃ vs, (Scoped.bindings (some i)).run.run e = (.ok vs, e)
  active : ∀ i ∈ e.current :: e.entered, e.IsOpen i
  released : ∀ i s, e.scope? i = some s → s.released = true →
    s.names = [] ∧ s.cells ≠ [] ∧ ∀ slot ∈ Assoc.keys s.cells,
      ∃ j t name, e.scope? j = some t ∧ t.released = false ∧ (name, slot) ∈ t.names
  enclosed : ∀ i s, e.scope? i = some s → ∀ kind, s.enclosedOf kind = e.inside i kind

theorem enclosedOf_eq (hs : s.enclosed = e.children i) (kind : ScopeKind) :
    s.enclosedOf kind = e.inside i kind := by
  rw [Scope.enclosedOf, hs, children, inside]
  induction e.scopes with
  | nil => rfl
  | cons p rest ih =>
    by_cases ho : p.2.outer? = some i <;> by_cases hk : p.2.kind = kind <;>
      simpa [ho, hk] using ih

theorem names_of_lookup {name : String}
    (h : (Scoped.lookup name (some i)).run.run e = (.ok (some l), e')) : e.Names i name l := by
  have hends : Ends (Scoped.lookup name (some i)) e
      (fun l? _ => ∀ l, l? = some l → e.Names i name l) (fun _ _ => True) := by
    rw [Scoped.ends_lookup]
    refine ⟨fun _ => trivial, fun s hs => ⟨fun _ => by simp, fun slot hname => ?_⟩⟩
    refine ⟨fun _ => trivial, fun o ho l hl => ?_⟩
    obtain rfl := Option.some.inj hl
    exact ⟨s, hs, hname, ho, rfl, rfl⟩
  exact hends.of_ok h l rfl

theorem Consistent.accounted (h : Consistent e) : e.Accounted where
  owner_iff := h.owner_iff
  one_scope slot i j hi hj := hi.unique h.toLinked hj
  numbered := by
    refine ⟨fun i slot => h.slot_lt slot i, fun i hi => ?_⟩
    obtain ⟨s, hs⟩ := Assoc.mem_keys_iff.1 hi
    exact (h.fits i s hs).lt_next
  named := by
    intro i s hs name slot hname
    obtain ⟨o, ho⟩ := (h.fits i s hs).named name slot hname
    exact ⟨o, (h.owner_iff slot o).2 ho⟩
  lookup := by
    intro i s hs name
    have hs' : e.scope? ((some i).getD e.current) = some s := hs
    have hends : Ends (Scoped.lookup name (some i)) e _ _ :=
      Scoped.ends_lookup_linked h.toLinked hs'
    obtain ⟨l?, t, hr, ht, -⟩ := hends.returns
    exact ⟨l?, ht ▸ hr⟩
  bindings := by
    intro i s hs
    have hs' : e.scope? ((some i).getD e.current) = some s := hs
    obtain ⟨vs, t, hr, ht⟩ := (Scoped.ends_bindings_linked h.toLinked hs').returns
    exact ⟨vs, ht ▸ hr⟩
  active := by
    intro i hi
    rcases List.mem_cons.1 hi with rfl | hi
    · exact h.current_open
    · exact h.entered_open i hi
  released := by
    intro i s hs hr
    obtain ⟨hcells, hbound⟩ := h.kept i s hs hr
    refine ⟨(h.fits i s hs).bare hr, hcells, fun slot hslot => ?_⟩
    obtain ⟨j, t, name, ht, hname⟩ := (isBound_iff h.scopes_nodup).1 (hbound slot hslot)
    refine ⟨j, t, name, ht, ?_, hname⟩
    -- A released scope has no names, so one with a name is not released.
    cases htr : t.released with
    | false => rfl
    | true => simp [(h.fits j t ht).bare htr] at hname
  enclosed i s hs := enclosedOf_eq (h.fits i s hs).enclosed

theorem consistent_init : Consistent init := by
  have hscope : ∀ i s, init.scope? i = some s →
      i = globalIndex ∧ s = .new "global" .global none := by
    intro i s hs
    by_cases hi : globalIndex = i
    · exact ⟨hi.symm, by simpa [init, scope?, Assoc.get?, hi] using hs.symm⟩
    · simp [init, scope?, Assoc.get?, hi] at hs
  have hholds : ∀ i slot, ¬ init.Holds i slot := by
    rintro i slot ⟨s, hs, hslot⟩
    obtain ⟨-, rfl⟩ := hscope i s hs
    simp [Scope.new, Assoc.keys] at hslot
  have hopen : init.IsOpen globalIndex := ⟨_, rfl, rfl⟩
  refine ⟨⟨by decide, by decide, ?_, ?_, ?_, hopen, hopen, ?_⟩, ?_⟩
  · intro i s hs
    obtain ⟨rfl, rfl⟩ := hscope i s hs
    refine ⟨by decide, by decide, by decide, ?_, ?_, ?_, by decide⟩
    all_goals simp [Scope.new]
  · intro slot i
    exact iff_of_false (by simp [init]) (hholds i slot)
  · exact fun slot i hh => absurd hh (hholds i slot)
  · simp [init]
  · intro i s hs hr
    obtain ⟨-, rfl⟩ := hscope i s hs
    simp [Scope.new] at hr

theorem Consistent.steps_of_ends {α : Type} {act : Scoped α} (h : Consistent e)
    (hact : Ends act e (fun _ e' => Steps e e') (fun _ e' => e' = e)) :
    Steps e (act.run.run e).2 := by
  refine (hact.mono (fun _ _ hs => hs) ?_).state
  rintro - t rfl
  exact h.steps

/-- One action keeps an environment consistent. -/
theorem Consistent.apply {a : Action} (h : Consistent e) (ha : a.Legal e) :
    Steps e (a.apply e) := by
  cases a with
  | create name kind outer? => exact h.steps_of_ends (Scoped.ends_create h)
  | enter i => exact h.steps_of_ends (Scoped.ends_enter h ha)
  | leave => exact h.steps_of_ends (Scoped.ends_leave h)
  | release i => exact h.steps_of_ends (Scoped.ends_release h)
  | declare name i? =>
    refine h.steps_of_ends ((Scoped.ends_declare_consistent h ha).mono ?_ ?_)
    · exact fun _ _ hd => hd.1
    · exact fun _ _ hd => hd.1
  | unset name i? =>
    refine h.steps_of_ends ((Scoped.ends_unset_consistent h).mono ?_ ?_)
    · exact fun _ _ hu => hu.1
    · exact fun _ _ hu => hu.1
  | bindGlobal name =>
    refine h.steps_of_ends ((Scoped.ends_bindGlobal_consistent h).mono ?_ ?_)
    · exact fun _ _ hb => hb.1
    · exact fun _ _ hb => hb.elim
  | bind name l i? =>
    obtain ⟨hi, j, source, hj, hl⟩ := ha
    refine h.steps_of_ends ((Scoped.ends_bind_consistent h hi hj (names_of_lookup hl)).mono ?_ ?_)
    · exact fun _ _ hb => hb.1
    · exact fun _ _ hb => hb.1
  | store l v => exact h.steps_of_ends (Scoped.ends_store_consistent h v)
  | newObject c i? => exact (Scoped.ends_newObject_consistent h).state

/-- A history keeps an environment consistent. -/
theorem Consistent.history {actions : List Action} (h : Consistent e)
    (hrun : History e actions e') : Steps e e' := by
  induction hrun with
  | nil e => exact h.steps
  | cons ha _ ih =>
    have hstep := h.apply ha
    exact hstep.trans (ih hstep.consistent)

/-- What every history from the fresh environment on has, at all its moments: the tables agree, and
between two moments a slot or scope that was there and went does not come back, nor does a slot that
stays change its scope. -/
theorem accounted_of_history {past between later : List Action} (h₀ : History init past e₀)
    (h₁ : History e₀ between e₁) (h₂ : History e₁ later e₂) :
    e₂.Accounted ∧
      (∀ slot i j, e₀.Holds i slot → e₂.Holds j slot → j = i ∧ e₁.Holds i slot) ∧
      (∀ i ∈ Assoc.keys e₀.scopes, i ∈ Assoc.keys e₂.scopes → i ∈ Assoc.keys e₁.scopes) := by
  have hc₀ := (consistent_init.history h₀).consistent
  have hs₁ := hc₀.history h₁
  have hs₂ := hs₁.consistent.history h₂
  refine ⟨hs₂.consistent.accounted, ?_, ?_⟩
  · intro slot i j hi hj
    have hlt := hc₀.slot_lt slot i hi
    have hmid := hs₂.grows.held j slot (Int.lt_of_lt_of_le hlt hs₁.grows.slots) hj
    have hsame : j = i := (hs₁.grows.held j slot hlt hmid).unique hc₀.toLinked hi
    exact ⟨hsame, hsame ▸ hmid⟩
  · intro i hi hi'
    have hlt := hc₀.accounted.numbered.2 i hi
    exact hs₂.grows.table i (Int.lt_of_lt_of_le hlt hs₁.grows.scopes) hi'

/-- A function's variable that a global name stands for outlives the function's scope, until the
name goes. -/
theorem accounted_outliving :
    ∃ e₀ e₁ e₂,
      History init [.create "f" "function" none, .enter 1, .declare "x" none] e₀ ∧
      History e₀ [.bind "y" ⟨1, 1, [], none⟩ (some 0), .leave, .release 1] e₁ ∧
      History e₁ [.unset "y" none, .enter 1] e₂ ∧ e₁.Holds 1 1 ∧ ¬ e₂.Holds 1 1 ∧ e₂.Accounted := by
  have run : ∃ e₀ e₁ e₂,
      History init [.create "f" "function" none, .enter 1, .declare "x" none] e₀ ∧
      History e₀ [.bind "y" ⟨1, 1, [], none⟩ (some 0), .leave, .release 1] e₁ ∧
      History e₁ [.unset "y" none, .enter 1] e₂ ∧ e₁.Holds 1 1 ∧ ¬ e₂.Holds 1 1 := by
    refine ⟨_, _, _, .cons trivial (.cons ?_ (.cons ?_ (.nil _))),
      .cons ⟨?_, 1, "x", ?_, rfl⟩ (.cons trivial (.cons trivial (.nil _))),
      .cons ?_ (.cons ?_ (.nil _)), ⟨_, rfl, by decide⟩, ?_⟩
    iterate 5 · rintro s ⟨⟩; rfl
    · rintro s ⟨⟩
    · rintro ⟨s, ⟨⟩, -⟩
  obtain ⟨e₀, e₁, e₂, h₀, h₁, h₂, hheld, hgone⟩ := run
  exact ⟨e₀, e₁, e₂, h₀, h₁, h₂, hheld, hgone, (accounted_of_history h₀ h₁ h₂).1⟩

end Environment

end PhpInterpreter
