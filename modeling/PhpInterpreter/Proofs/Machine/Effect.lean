import PhpInterpreter.Proofs.Scope.History

/-!
What evaluation may do to an environment. Names are declared, bound and unset in the current scope,
and values are stored: the stores are recorded, since views on the stack follow them.
-/

namespace PhpInterpreter

/-- A value stored at a location. -/
abbrev Write : Type := Location × Value

namespace View

/-- The view after several writes. -/
def followAll (ws : List Write) (v : View) : View := ws.foldl (fun v w => v.follow w.1 w.2) v

theorem followAll_nil : followAll [] = id := rfl

theorem followAll_append (ws ws' : List Write) (v : View) :
    v.followAll (ws ++ ws') = (v.followAll ws).followAll ws' := List.foldl_append ..

end View

namespace Item

/-- The item after several writes. -/
def followAll (ws : List Write) (i : Item) : Item := ws.foldl (fun i w => i.follow w.1 w.2) i

theorem followAll_nil : followAll [] = id := rfl

theorem followAll_append (ws ws' : List Write) (i : Item) :
    i.followAll (ws ++ ws') = (i.followAll ws).followAll ws' := List.foldl_append ..

@[simp] theorem followAll_pending (ws : List Write) (t : Term) (intent? : Option Intent) :
    (pending t intent?).followAll ws = pending t intent? := by
  induction ws with
  | nil => rfl
  | cons w ws ih => exact ih

@[simp] theorem followAll_location (ws : List Write) (l? : Option Location) :
    (location l?).followAll ws = location l? := by
  induction ws with
  | nil => rfl
  | cons w ws ih => exact ih

@[simp] theorem followAll_value (ws : List Write) (v : View) :
    (value v).followAll ws = value (v.followAll ws) := by
  induction ws generalizing v with
  | nil => rfl
  | cons w ws ih => exact ih (v.follow w.1 w.2)

end Item

namespace Action

/-- The changes of names that evaluation makes: in the current scope, and a name is only bound to
what another name there stands for. -/
def Own (e : Environment) : Action → Prop
  | declare _ none | unset _ none | bindGlobal _ => True
  | bind _ l none => ∃ source, e.Names e.current source l
  | _ => False

end Action

namespace Environment

variable {e e' : Environment} {ws ws' : List Write} {l : Location} {v : Value}

/-- Evaluation can lead from one environment to another, with these writes. -/
inductive Effect : Environment → List Write → Environment → Prop
  | refl (e : Environment) : Effect e [] e
  | act {e : Environment} {a : Action} (ha : a.Own e) : Effect e [] (a.apply e)
  | store {e e' : Environment} {l : Location} {v : Value}
      (h : (Scoped.store l v).run.run e = (.ok (), e')) : Effect e [(l, v)] e'
  | trans {e₁ e₂ e₃ : Environment} {ws ws' : List Write} (h : Effect e₁ ws e₂)
      (h' : Effect e₂ ws' e₃) : Effect e₁ (ws ++ ws') e₃

theorem lookup_of_names {i : Int} {name : String} (h : e.Names i name l) :
    (Scoped.lookup name (some i)).run.run e = (.ok (some l), e) := by
  obtain ⟨s, hs, hname, ho, hpath, hchar⟩ := h
  have hends : Ends (Scoped.lookup name (some i)) e
      (fun l? e' => l? = some l ∧ e' = e) (fun _ _ => False) := by
    rw [Scoped.ends_lookup]
    refine ⟨fun hnone => by simp [hs] at hnone, fun t ht => ?_⟩
    obtain rfl : s = t := by simpa [hs] using ht
    refine ⟨fun hnone => by simp [hname] at hnone, fun slot hslot => ?_⟩
    obtain rfl : l.slot = slot := by simpa [hname] using hslot
    refine ⟨fun hnone => by simp [ho] at hnone, fun o hown => ⟨?_, rfl⟩⟩
    obtain rfl : l.scope = o := by simpa [ho] using hown
    rw [← hpath, ← hchar]
  obtain ⟨_, _, hr, rfl, rfl⟩ := hends.returns
  exact hr

theorem Consistent.legal_own {a : Action} (h : Consistent e) (ha : a.Own e) : a.Legal e := by
  have hcurrent : e.Unreleased (none.getD e.current) := h.current_open.unreleased
  match a with
  | .declare _ none | .unset _ none => exact hcurrent
  | .bindGlobal _ => trivial
  | .bind _ l none =>
    obtain ⟨source, hsource⟩ := ha
    exact ⟨hcurrent, e.current, source, hcurrent, lookup_of_names hsource⟩

/-- Evaluation keeps an environment consistent. -/
theorem Effect.steps (h : Effect e ws e') (hc : Consistent e) : Steps e e' := by
  induction h with
  | refl => exact hc.steps
  | act ha => exact hc.apply (hc.legal_own ha)
  | store hr => exact (Scoped.ends_store_consistent hc _).of_ok hr
  | trans _ _ ih ih' =>
    have hs := ih hc
    exact hs.trans (ih' hs.consistent)

end Environment

end PhpInterpreter
