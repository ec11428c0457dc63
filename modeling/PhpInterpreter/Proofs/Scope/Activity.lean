import Mathlib.Data.List.Induction
import PhpInterpreter.Proofs.Scope.History

/-!
The scopes in use: the current one and those to go back to. Releasing a scope in use is refused, but
a scope that was released before and is still in the table can be entered, and a later sweep takes
it away although it is in use. The main result is that a scope in use is missing from the table in
no other way, whatever operations came before.
-/

namespace PhpInterpreter

namespace Environment

variable {e e' e₁ : Environment} {i j slot : Int} {s t : Scope} {name : String}

/-- The scopes in use. -/
def active (e : Environment) : List Int := e.current :: e.entered

/-- The scope `i` is in the table and released. -/
def IsReleased (e : Environment) (i : Int) : Prop := ∃ s, e.scope? i = some s ∧ s.released = true

/-- The numbers of scopes are used once, and none of them is still to come. -/
structure Numbered (e : Environment) : Prop where
  nodup : (Assoc.keys e.scopes).Nodup
  lt_next : ∀ i s, e.scope? i = some s → i < e.nextScope

theorem numbered_init : Numbered init :=
  ⟨consistent_init.scopes_nodup, fun i s hs => (consistent_init.fits i s hs).lt_next⟩

theorem Numbered.scope?_nextScope (h : Numbered e) : e.scope? e.nextScope = none := by
  cases hs : e.scope? e.nextScope with
  | none => rfl
  | some s => exact absurd (h.lt_next _ s hs) (Int.lt_irrefl _)

/-- A change of the table in which the open scopes in use stay open, and no scope that was released
or gone is open or there again. -/
structure Upholds (e e' : Environment) : Prop where
  numbered : Numbered e'
  next : e.nextScope ≤ e'.nextScope
  opened : ∀ i ∈ e.active, e.IsOpen i → e'.IsOpen i
  table : ∀ i t, i < e.nextScope → e'.scope? i = some t →
    ∃ s, e.scope? i = some s ∧ (s.released = true → t.released = true)

/-- Such a change with the same scopes in use. -/
structure Abides (e e' : Environment) : Prop extends Upholds e e' where
  active : e'.active = e.active

theorem Numbered.upholds (h : Numbered e) : Upholds e e :=
  ⟨h, Int.le_refl _, fun _ _ hi => hi, fun _ t _ ht => ⟨t, ht, id⟩⟩

theorem Numbered.abides (h : Numbered e) : Abides e e := ⟨h.upholds, rfl⟩

theorem Abides.trans (h : Abides e e₁) (h' : Abides e₁ e') : Abides e e' := by
  refine ⟨⟨h'.numbered, Int.le_trans h.next h'.next, fun i hi hopen => ?_, fun i t hi ht => ?_⟩,
    h'.active.trans h.active⟩
  · exact h'.opened i (h.active ▸ hi) (h.opened i hi hopen)
  · obtain ⟨r, hr, hrt⟩ := h'.table i t (Int.lt_of_lt_of_le hi h.next) ht
    obtain ⟨s, hs, hsr⟩ := h.table i r hi hr
    exact ⟨s, hs, hrt ∘ hsr⟩

/-- A scope that is gone stays away. -/
theorem Upholds.gone (h : Upholds e e') (hi : i < e.nextScope) (hnone : e.scope? i = none) :
    e'.scope? i = none := by
  cases ht : e'.scope? i with
  | none => rfl
  | some t =>
    obtain ⟨s, hs, -⟩ := h.table i t hi ht
    simp [hnone] at hs

/-! ## Changes of the table -/

/-- Scopes in use are not released by the change, and none is opened again. -/
theorem Numbered.abides_modifyScope {f : Scope → Scope} (h : Numbered e)
    (hclosed : ∀ s, s.released = true → (f s).released = true)
    (hopen : i ∈ e.active → ∀ s, s.released = false → (f s).released = false) :
    Abides e (e.modifyScope i f) := by
  have hback : ∀ {j t}, (e.modifyScope i f).scope? j = some t →
      ∃ s, e.scope? j = some s ∧ (s.released = true → t.released = true) := by
    intro j t ht
    rw [scope?_modifyScope] at ht
    split at ht
    · obtain ⟨s, hs, rfl⟩ := Option.map_eq_some_iff.1 ht
      exact ⟨s, hs, hclosed s⟩
    · exact ⟨t, ht, id⟩
  refine ⟨⟨⟨by simpa [modifyScope] using h.nodup, fun j t ht => ?_⟩, Int.le_refl _, ?_, ?_⟩, rfl⟩
  · obtain ⟨s, hs, -⟩ := hback ht
    exact h.lt_next j s hs
  · exact fun j hj hjopen => hjopen.modifyScope fun hij s _ => hopen (hij ▸ hj) s
  · exact fun j t _ ht => hback ht

theorem Numbered.abides_contents {f : Scope → Scope} (h : Numbered e)
    (hf : ∀ s, (f s).released = s.released) : Abides e (e.modifyScope i f) :=
  h.abides_modifyScope (fun s hs => (hf s).trans hs) fun _ s hs => (hf s).trans hs

/-- Slots and handles do not matter here. -/
theorem Abides.rest {owners : List (Int × Int)} {slot handle : Int} (h : Abides e e') :
    Abides e { e' with owners := owners, nextSlot := slot, nextHandle := handle } :=
  ⟨⟨⟨h.numbered.nodup, h.numbered.lt_next⟩, h.next, h.opened, h.table⟩, h.active⟩

theorem Numbered.abides_dropCell (h : Numbered e) : Abides e (e.dropCell i slot) := by
  have hcells := h.abides_contents (i := i)
    (f := fun s => { s with cells := Assoc.erase slot s.cells }) fun _ => rfl
  exact hcells.rest

theorem Numbered.abides_dropCells {slots : List Int} (h : Numbered e) :
    Abides e (slots.foldl (fun e slot => e.dropCell i slot) e) := by
  induction slots generalizing e with
  | nil => exact h.abides
  | cons x rest ih =>
    have hx : Abides e (e.dropCell i x) := h.abides_dropCell
    exact hx.trans (ih hx.numbered)

theorem Numbered.abides_dropScope (h : Numbered e) (hi : ¬ e.IsOpen i) :
    Abides e (e.dropScope i s) := by
  have hnext : (e.dropScope i s).nextScope = e.nextScope := congrArg (·.nextScope) dropScope_eq
  refine ⟨⟨⟨?_, fun j t ht => ?_⟩, Int.le_of_eq hnext.symm, fun j _ hj => ?_, fun j t _ ht => ?_⟩,
    ?_⟩
  · rw [keys_scopes_dropScope]
    exact h.nodup.erase i
  · obtain ⟨-, o, _, ho, -⟩ := exists_of_scope?_dropScope h.nodup ht
    exact hnext ▸ h.lt_next j o ho
  · exact hj.dropScope h.nodup fun heq => hi (heq ▸ hj)
  · obtain ⟨-, o, _, ho, rfl⟩ := exists_of_scope?_dropScope h.nodup ht
    exact ⟨o, ho, id⟩
  · rw [active, active, congrArg (·.current) dropScope_eq, congrArg (·.entered) dropScope_eq]

/-- What was not open does not become so. -/
theorem Upholds.not_isOpen (h : Upholds e e') (hi : i < e.nextScope) (hopen : ¬ e.IsOpen i) :
    ¬ e'.IsOpen i := by
  rintro ⟨t, ht, hr⟩
  obtain ⟨s, hs, hst⟩ := h.table i t hi ht
  refine hopen ⟨s, hs, ?_⟩
  cases hsr : s.released with
  | false => rfl
  | true => simp [hst hsr] at hr

theorem Numbered.abides_sweepScope (h : Numbered e) (hi : ¬ e.IsOpen i) :
    Abides e (e.sweepScope i) := by
  unfold sweepScope
  split
  · exact h.abides
  · rename_i s hs
    have hcells : Abides e (((Assoc.keys s.cells).filter fun slot => !e.isBound slot).foldl
        (fun e slot => e.dropCell i slot) e) := h.abides_dropCells
    dsimp only
    split
    · exact hcells.trans
        (hcells.numbered.abides_dropScope (hcells.not_isOpen (h.lt_next i s hs) hi))
    · exact hcells

theorem Numbered.abides_sweep (h : Numbered e) : Abides e e.sweep := by
  have hfold : ∀ (indices : List Int) (e' : Environment), Abides e e' →
      (∀ i ∈ indices, i < e.nextScope ∧ ¬ e.IsOpen i) → Abides e (indices.foldl sweepScope e') := by
    intro indices
    induction indices with
    | nil => exact fun _ he' _ => he'
    | cons i rest ih =>
      intro e' he' hall
      obtain ⟨⟨hlt, hi⟩, hrest⟩ := List.forall_mem_cons.1 hall
      exact ih _ (he'.trans (he'.numbered.abides_sweepScope (he'.not_isOpen hlt hi))) hrest
  refine hfold _ e h.abides fun i hi => ?_
  obtain ⟨⟨k, t⟩, hkt, rfl⟩ := List.mem_map.1 hi
  obtain ⟨hmem, hrel⟩ := List.mem_filter.1 hkt
  have hk := (mem_scopes_iff h.nodup).1 hmem
  refine ⟨h.lt_next k t hk, ?_⟩
  rintro ⟨s, hs, hr⟩
  obtain rfl : t = s := by simpa [hs] using hk.symm
  exact absurd (hrel.symm.trans hr) (by decide)

theorem Numbered.abides_declared (h : Numbered e) : Abides e (Scoped.declared i name e) := by
  have hcell : Abides e (e.allocate i .null).2 := by
    have hcells := h.abides_contents (i := i)
      (f := fun s => { s with cells := Assoc.insert e.nextSlot .null s.cells }) fun _ => rfl
    exact hcells.rest
  exact hcell.trans (hcell.numbered.abides_contents fun _ => rfl)

theorem Numbered.abides_unbound (h : Numbered e) : Abides e (Scoped.unbound i name slot e) := by
  have herase : Abides e (e.eraseName i name) := h.abides_contents fun _ => rfl
  simp only [Scoped.unbound]
  split
  · exact herase
  · split
    · rename_i o _
      have hdrop : Abides e ((e.eraseName i name).dropCell o slot) :=
        herase.trans herase.numbered.abides_dropCell
      exact hdrop.trans hdrop.numbered.abides_sweep
    · exact herase.trans herase.numbered.abides_sweep

theorem Numbered.abides_addScope {kind : ScopeKind} {outer : Int} (h : Numbered e)
    (ho : e.scope? outer = some t) : Abides e (e.addScope name kind outer) := by
  have hfree := h.scope?_nextScope
  refine ⟨⟨⟨?_, fun j r hr => ?_⟩, Int.le_add_one (Int.le_refl _), fun j _ hj => ?_,
    fun j r hj hr => ?_⟩, rfl⟩
  · simpa [addScope, modifyScope] using Assoc.nodup_keys_insert h.nodup
  · rcases exists_of_scope?_addScope hfree ho hr with ⟨rfl, -⟩ | ⟨o, _, hso, -⟩
    · exact Int.lt_succ _
    · exact Int.lt_add_one_of_le (Int.le_of_lt (h.lt_next j o hso))
  · exact isOpen_addScope hfree ho hj
  · rcases exists_of_scope?_addScope hfree ho hr with ⟨rfl, -⟩ | ⟨o, _, hso, rfl⟩
    · exact absurd hj (Int.lt_irrefl _)
    · exact ⟨o, hso, id⟩

/-- Whatever comes of the operation, it abides by the scopes in use. -/
def Civil {α : Type} (act : Scoped α) (e : Environment) : Prop :=
  Ends act e (fun _ e' => Abides e e') fun _ e' => Abides e e'

theorem Numbered.create (h : Numbered e) (name kind : String) (outer? : Option Int) :
    Civil (Scoped.create name kind outer?) e := by
  rw [Civil]
  unfold Scoped.create
  split
  · exact h.abides
  · simp only [PhpInterpreter.ends_bind, Scoped.ends_orCurrent, Scoped.ends_get, ends_modifyGet]
    exact ⟨fun o ho => h.abides_addScope ho, fun _ => h.abides⟩

theorem Numbered.release (h : Numbered e) (i : Int) : Civil (Scoped.release i) e := by
  simp only [Civil, Scoped.release, PhpInterpreter.ends_bind, ends_getThe]
  split
  · exact h.abides
  · split
    · exact h.abides
    · rename_i hfree
      have hunused : i ∉ e.active := by simpa [active] using hfree
      simp only [PhpInterpreter.ends_bind, Scoped.ends_get, ends_modify]
      refine ⟨fun s hs => ?_, fun _ => h.abides⟩
      have hmark : Abides e (e.modifyScope i fun s => { s with names := [], released := true }) :=
        h.abides_modifyScope (fun _ _ => rfl) fun hi => absurd hi hunused
      exact hmark.trans hmark.numbered.abides_sweep

theorem Numbered.declare (h : Numbered e) (name : String) (i? : Option Int) :
    Civil (Scoped.declare name i?) e := by
  rw [Civil, Scoped.ends_declare]
  refine ⟨fun _ => h.abides, fun s _ => ⟨fun _ => h.abides_declared, fun slot _ => ?_⟩⟩
  exact ⟨fun _ => h.abides, fun _ _ => h.abides⟩

theorem Numbered.unset (h : Numbered e) (name : String) (i? : Option Int) :
    Civil (Scoped.unset name i?) e := by
  rw [Civil, Scoped.ends_unset]
  exact ⟨fun _ => h.abides, fun s _ => ⟨fun _ => h.abides, fun slot _ => h.abides_unbound⟩⟩

theorem Numbered.bind (h : Numbered e) (name : String) (l : Location) (i? : Option Int) :
    Civil (Scoped.bind name l i?) e := by
  rw [Civil]
  unfold Scoped.bind
  split
  · exact h.abides
  · simp only [PhpInterpreter.ends_bind, Scoped.ends_orCurrent, Scoped.ends_get]
    refine ⟨fun s _ => ?_, fun _ => h.abides⟩
    split
    · exact h.abides
    · simp only [PhpInterpreter.ends_bind, Scoped.ends_get, ends_modify]
      refine (h.unset name (some (i?.getD e.current))).mono (fun _ e₁ h₁ => ?_) fun _ _ h₁ => h₁
      exact ⟨fun _ _ => h₁.trans (h₁.numbered.abides_contents fun _ => rfl), fun _ => h₁⟩

theorem Numbered.bindGlobal (h : Numbered e) (name : String) :
    Civil (Scoped.bindGlobal name) e := by
  rw [Civil, Scoped.bindGlobal, PhpInterpreter.ends_bind]
  refine (h.declare name (some globalIndex)).mono (fun l e₁ h₁ => ?_) fun _ _ h₁ => h₁
  simp only [PhpInterpreter.ends_bind, ends_getThe]
  split
  · simp only [PhpInterpreter.ends_bind, ends_pure]
    exact (h₁.numbered.bind name l none).mono (fun _ _ => h₁.trans) fun _ _ => h₁.trans
  · exact h₁

theorem Numbered.store (h : Numbered e) (l : Location) (v : Value) :
    Civil (Scoped.store l v) e := by
  rw [Civil, Scoped.ends_store]
  refine ⟨fun _ => h.abides, fun _ => ⟨fun _ => h.abides, fun s _ => ⟨fun _ => h.abides, ?_⟩⟩⟩
  exact fun _ _ => ⟨fun _ => h.abides, fun _ _ => h.abides_contents fun _ => rfl⟩

theorem Numbered.newObject (h : Numbered e) (className : String) (i? : Option Int) :
    Civil (Scoped.newObject className i?) e := by
  simp only [Civil, Scoped.newObject, PhpInterpreter.ends_bind, Scoped.ends_orCurrent,
    ends_modifyGet, Scoped.ends_get, ends_modify, ends_pure]
  have hhandle : Abides e { e with nextHandle := e.nextHandle + 1 } := h.abides.rest
  refine ⟨fun _ _ => hhandle.trans (hhandle.numbered.abides_contents fun _ => rfl), fun _ => ?_⟩
  exact hhandle

/-! ## Sequences of actions -/

/-- The environment after actions, whether they succeed or not. -/
def after (e : Environment) (actions : List Action) : Environment :=
  actions.foldl (fun e a => a.apply e) e

@[simp] theorem after_nil (e : Environment) : e.after [] = e := rfl

@[simp] theorem after_cons (e : Environment) (a : Action) (actions : List Action) :
    e.after (a :: actions) = (a.apply e).after actions := rfl

@[simp] theorem after_append (e : Environment) (first second : List Action) :
    e.after (first ++ second) = (e.after first).after second := by
  simp [after]

/-- What an action does to the scopes in use: only entering adds one, which has to be there. -/
structure Moves (a : Action) (e e' : Environment) : Prop extends Upholds e e' where
  used : ∀ i ∈ e'.active, i ∈ e.active ∨
    a = .enter i ∧ e.scope? i ≠ none ∧ e'.scope? i = e.scope? i

theorem Abides.moves {a : Action} (h : Abides e e') : Moves a e e' :=
  ⟨h.toUpholds, fun _ hi => .inl (h.active ▸ hi)⟩

/-- One action. -/
theorem Numbered.apply (h : Numbered e) (a : Action) : Moves a e (a.apply e) := by
  cases a with
  | create n kind outer? => exact (h.create n kind outer?).state.moves
  | release i => exact (h.release i).state.moves
  | declare n i? => exact (h.declare n i?).state.moves
  | unset n i? => exact (h.unset n i?).state.moves
  | bindGlobal n => exact (h.bindGlobal n).state.moves
  | bind n l i? => exact (h.bind n l i?).state.moves
  | store l v => exact (h.store l v).state.moves
  | newObject c i? => exact (h.newObject c i?).state.moves
  | enter i =>
    have henter : Ends (Scoped.enter i) e (fun _ e' => Moves (.enter i) e e')
        fun _ e' => Moves (.enter i) e e' := by
      simp only [Scoped.enter, PhpInterpreter.ends_bind, Scoped.ends_get, ends_modify]
      refine ⟨fun s hs => ⟨⟨⟨h.nodup, h.lt_next⟩, Int.le_refl _, fun _ _ hi => hi,
        fun _ t _ ht => ⟨t, ht, id⟩⟩, fun j hj => ?_⟩, fun _ => h.abides.moves⟩
      rcases List.mem_cons.1 hj with rfl | hj
      · exact .inr ⟨rfl, by simp [hs], rfl⟩
      · exact .inl hj
    exact henter.state
  | leave =>
    have hleave : Ends Scoped.leave e (fun _ e' => Moves .leave e e')
        fun _ e' => Moves .leave e e' := by
      simp only [Scoped.leave, PhpInterpreter.ends_bind, ends_getThe]
      split
      · exact h.abides.moves
      · rename_i back rest hentered
        refine ⟨⟨⟨h.nodup, h.lt_next⟩, Int.le_refl _, fun _ _ hi => hi,
          fun _ t _ ht => ⟨t, ht, id⟩⟩, fun j hj => .inl ?_⟩
        have hj : j ∈ back :: rest := hj
        exact List.mem_cons_of_mem _ (hentered ▸ hj)
    exact hleave.state

variable {actions : List Action}

theorem Numbered.after (h : Numbered e) (actions : List Action) : Numbered (e.after actions) := by
  induction actions generalizing e with
  | nil => exact h
  | cons a rest ih => exact ih (h.apply a).numbered

/-- A scope that is gone does not come back. -/
theorem Numbered.gone (h : Numbered e) (hi : i < e.nextScope) (hnone : e.scope? i = none)
    (actions : List Action) : (e.after actions).scope? i = none := by
  induction actions generalizing e with
  | nil => exact hnone
  | cons a rest ih =>
    have hmoves := h.apply a
    exact ih hmoves.numbered (Int.lt_of_lt_of_le hi hmoves.next) (hmoves.gone hi hnone)

/-- A scope that is gone cannot be entered, so one that is in use later was in use before. -/
theorem Numbered.used_before (h : Numbered e) (hi : i < e.nextScope) (hnone : e.scope? i = none)
    (hused : i ∈ (e.after actions).active) : i ∈ e.active := by
  induction actions generalizing e with
  | nil => exact hused
  | cons a rest ih =>
    have hmoves := h.apply a
    have hnext := ih hmoves.numbered (Int.lt_of_lt_of_le hi hmoves.next) (hmoves.gone hi hnone)
      hused
    exact (hmoves.used i hnext).resolve_right fun hin => hin.2.1 hnone

end Environment

/-- The action takes the scope `i` out of the table although it is in use. -/
structure Action.Uproots (e : Environment) (i : Int) (a : Action) : Prop where
  used : i ∈ e.active
  released : e.IsReleased i
  gone : (a.apply e).scope? i = none

namespace Environment

variable {e : Environment} {i : Int} {actions : List Action}

/-- A scope that is in use at the end and disappears on the way is uprooted by one of the actions,
if it was released before. -/
theorem Numbered.uproots (h : Numbered e) (hrel : e.IsReleased i)
    (hused : i ∈ (e.after actions).active) (hnone : (e.after actions).scope? i = none) :
    ∃ between a later, actions = between ++ a :: later ∧ a.Uproots (e.after between) i := by
  induction actions generalizing e with
  | nil =>
    obtain ⟨s, hs, -⟩ := hrel
    simp [hs] at hnone
  | cons a rest ih =>
    obtain ⟨s, hs, hsr⟩ := hrel
    have hlt := h.lt_next i s hs
    have hmoves := h.apply a
    cases ht : (a.apply e).scope? i with
    | some t =>
      -- It is still there, and still released.
      obtain ⟨r, hr, hrt⟩ := hmoves.table i t hlt ht
      obtain rfl : s = r := by simpa [hs] using hr
      obtain ⟨between, b, later, rfl, hb⟩ := ih hmoves.numbered ⟨t, ht, hrt hsr⟩ hused hnone
      exact ⟨a :: between, b, later, rfl, hb⟩
    | none =>
      have hnow := hmoves.numbered.used_before (Int.lt_of_lt_of_le hlt hmoves.next) ht hused
      refine ⟨[], a, rest, rfl, (hmoves.used i hnow).resolve_right ?_, ⟨s, hs, hsr⟩, ht⟩
      rintro ⟨-, hthere, hsame⟩
      exact hthere (hsame.symm.trans ht)

/-- A scope in use is open, or it was entered after its release. -/
theorem open_or_revisited (actions : List Action) (i : Int)
    (hi : i ∈ (init.after actions).active) :
    (init.after actions).IsOpen i ∨ ∃ past later, actions = past ++ .enter i :: later ∧
      (init.after past).IsReleased i := by
  induction actions using List.reverseRecOn generalizing i with
  | nil =>
    obtain rfl : i = globalIndex := by simpa [init, active] using hi
    exact .inl ⟨_, rfl, rfl⟩
  | append_singleton actions a ih =>
    have hnumbered := numbered_init.after actions
    have hmoves := hnumbered.apply a
    rw [after_append, after_cons, after_nil] at hi ⊢
    rcases hmoves.used i hi with hbefore | ⟨rfl, hthere, hsame⟩
    · rcases ih i hbefore with hopen | ⟨past, later, rfl, hrel⟩
      · exact .inl (hmoves.opened i hbefore hopen)
      · exact .inr ⟨past, later ++ [a], by simp, hrel⟩
    · obtain ⟨s, hs⟩ := Option.ne_none_iff_exists'.1 hthere
      cases hr : s.released with
      | false => exact .inl ⟨s, hsame.trans hs, hr⟩
      | true => exact .inr ⟨actions, [], by simp, s, hs, hr⟩

theorem scope?_enter (e : Environment) (i j : Int) :
    ((Action.enter i).apply e).scope? j = e.scope? j := by
  have henter : Ends (Scoped.enter i) e (fun _ e' => e'.scope? j = e.scope? j)
      fun _ e' => e'.scope? j = e.scope? j := by
    simp only [Scoped.enter, PhpInterpreter.ends_bind, Scoped.ends_get, ends_modify]
    exact ⟨fun _ _ => rfl, fun _ => trivial⟩
  exact henter.state

end Environment

namespace Scoped

variable {α : Type} {e : Environment} {act : Scoped α}

/-- The operation fails for want of a scope in the table. -/
def Misses (act : Scoped α) (e : Environment) : Prop :=
  ∃ k e', act.run.run e = (.error (.unknownScope k), e')

theorem misses_iff : Misses act e ↔
    ¬ Ends act e (fun _ _ => True) fun b _ => ∀ k, b ≠ .unknownScope k := by
  unfold Misses Ends
  generalize act.run.run e = p
  obtain ⟨r, t⟩ := p
  cases r with
  | ok a => exact iff_of_false (by rintro ⟨k, e', ⟨⟩⟩) fun h => h trivial
  | error b =>
    constructor
    · rintro ⟨k, e', ⟨⟩⟩ h
      exact h k rfl
    · intro h
      obtain ⟨k, rfl⟩ : ∃ k, b = .unknownScope k := by simpa using h
      exact ⟨k, t, rfl⟩

theorem misses_current : Misses (get e.current) e ↔ e.scope? e.current = none := by
  rw [misses_iff, ends_get]
  simp

theorem misses_lookup {name : String} :
    Misses (lookup name none) e ↔ e.scope? e.current = none := by
  rw [misses_iff, ends_lookup]
  simp

theorem misses_declare {name : String} :
    Misses (declare name none) e ↔ e.scope? e.current = none := by
  rw [misses_iff, ends_declare]
  simp

theorem misses_unset {name : String} :
    Misses (unset name none) e ↔ e.scope? e.current = none := by
  rw [misses_iff, ends_unset]
  simp

end Scoped

namespace Environment

/-- After any actions from the fresh environment on, a scope in use is missing from the table if and
only if it was entered when it was released already, and a later action swept it away; and the
operations on the current scope miss it exactly if the current scope is missing. -/
theorem missing_iff_uprooted (actions : List Action) :
    (∀ i ∈ (init.after actions).active, (init.after actions).scope? i = none ↔
      ∃ past between a later, actions = past ++ .enter i :: (between ++ a :: later) ∧
        (init.after past).IsReleased i ∧
        a.Uproots (init.after (past ++ .enter i :: between)) i) ∧
    ∀ name,
      (Scoped.Misses (Scoped.get (init.after actions).current) (init.after actions) ↔
        (init.after actions).scope? (init.after actions).current = none) ∧
      (Scoped.Misses (Scoped.lookup name none) (init.after actions) ↔
        (init.after actions).scope? (init.after actions).current = none) ∧
      (Scoped.Misses (Scoped.declare name none) (init.after actions) ↔
        (init.after actions).scope? (init.after actions).current = none) ∧
      (Scoped.Misses (Scoped.unset name none) (init.after actions) ↔
        (init.after actions).scope? (init.after actions).current = none) := by
  refine ⟨fun i hi => ⟨fun hnone => ?_, ?_⟩, fun name => ⟨Scoped.misses_current,
    Scoped.misses_lookup, Scoped.misses_declare, Scoped.misses_unset⟩⟩
  · rcases open_or_revisited actions i hi with hopen | ⟨past, rest, rfl, hrel⟩
    · exact absurd hnone hopen.scope?_ne_none
    · rw [after_append, after_cons] at hi hnone
      have hpast := (numbered_init.after past).apply (.enter i)
      have hrel' : ((Action.enter i).apply (init.after past)).IsReleased i := by
        rw [IsReleased, scope?_enter]
        exact hrel
      obtain ⟨between, a, later, rfl, ha⟩ := hpast.numbered.uproots hrel' hi hnone
      exact ⟨past, between, a, later, rfl, hrel, by rwa [after_append, after_cons]⟩
  · rintro ⟨past, between, a, later, rfl, -, ha⟩
    have hnow := numbered_init.after (past ++ .enter i :: between)
    have hmoves := hnow.apply a
    obtain ⟨s, hs, -⟩ := ha.released
    have hlt := Int.lt_of_lt_of_le (hnow.lt_next i s hs) hmoves.next
    have hgone := hmoves.numbered.gone hlt ha.gone later
    simpa using hgone

/-- A released function scope is kept by a global name for its variable. It is entered again and
goes with that name, and nothing can be declared in the current scope any more. -/
theorem missing_reentered :
    ∃ actions, actions = [.create "f" "function" none, .enter 1, .declare "x" none,
        .bind "y" ⟨1, 1, [], none⟩ (some 0), .leave, .release 1, .enter 1, .unset "y" (some 0)] ∧
      1 ∈ (init.after actions).active ∧ (init.after actions).scope? 1 = none ∧
      (∃ past between a later, actions = past ++ .enter 1 :: (between ++ a :: later) ∧
        (init.after past).IsReleased 1 ∧
        a.Uproots (init.after (past ++ .enter 1 :: between)) 1) ∧
      Scoped.Misses (Scoped.declare "z" none) (init.after actions) := by
  refine ⟨_, rfl, by decide, rfl, ?_, ?_⟩
  · exact ((missing_iff_uprooted _).1 1 (by decide)).1 rfl
  · exact ((missing_iff_uprooted _).2 "z").2.2.1.2 rfl

end Environment

end PhpInterpreter
