import PhpInterpreter.Proofs.Machine.Discipline
import PhpInterpreter.Proofs.Machine.Program
import PhpInterpreter.Proofs.Value.Tidy
import PhpInterpreter.Source.Tree

/-!
Sessions: programs are run one after the other, and between them scopes are opened and closed and
objects are put into variables. Every environment of a session is consistent, and its cells hold
tidy values, wherever a run stopped.
-/

namespace PhpInterpreter

/-- What is done to an environment between runs; a scope is opened by creating and entering it and
closed by leaving and releasing it. -/
def Action.Outer (e : Environment) : Action → Prop
  | create .. | leave | release _ | newObject .. => True
  | enter i => e.Unreleased i
  | _ => False

namespace Scoped

open Environment

variable {e : Environment} {i? j? : Option Int} {className name : String}

/-- A variable gets a new object. -/
def holdObject (className name : String) (i? j? : Option Int) : Scoped Unit := do
  let v ← newObject className i?
  let l ← declare name j?
  store l v

theorem ends_newObject_open :
    Ends (newObject className i?) e
      (fun _ e' => e'.current = e.current ∧ ∀ j, e.Unreleased j → e'.Unreleased j)
      (fun _ _ => True) := by
  simp only [newObject, ends_bind, ends_orCurrent, ends_modifyGet, ends_get, ends_modify, ends_pure]
  refine ⟨fun s _ => ⟨rfl, fun j hj t ht => ?_⟩, fun _ => trivial⟩
  rw [scope?_modifyScope] at ht
  split at ht
  · obtain ⟨r, hr, rfl⟩ := Option.map_eq_some_iff.1 ht
    exact hj r hr
  · exact hj t ht

theorem steps_holdObject (h : Consistent e) (hj : e.Unreleased (j?.getD e.current)) :
    Steps e ((holdObject className name i? j?).run.run e).2 := by
  have hends : Ends (holdObject className name i? j?) e (fun _ => Steps e) (fun _ => Steps e) := by
    simp only [holdObject, ends_bind]
    refine ((ends_newObject_consistent h).and ends_newObject_open).mono ?_ fun _ _ hf => hf.1
    rintro v e₁ ⟨hs₁, hcurrent, hopen⟩
    have hj₁ : e₁.Unreleased (j?.getD e₁.current) := by
      rw [hcurrent]
      exact hopen _ hj
    refine (ends_declare_consistent hs₁.consistent hj₁).mono ?_ ?_
    · rintro l e₂ ⟨hs₂, -⟩
      refine (ends_store_consistent hs₂.consistent v).mono (fun _ _ hs₃ => ?_) ?_
      · exact hs₁.trans (hs₂.trans hs₃)
      · rintro - _ rfl
        exact hs₁.trans hs₂
    · rintro - _ ⟨rfl, -⟩
      exact hs₁
  exact hends.state

end Scoped

namespace Contract

variable {K : Contract} {e : Environment}

theorem Cells.holdObject {className name : String} {i? j? : Option Int} (h : K.Cells e)
    (hobject : ∀ handle c, K.value (.object handle c)) :
    K.Cells ((Scoped.holdObject className name i? j?).run.run e).2 := by
  have hpath : ∀ e, Ends (Scoped.declare name j?) e (fun l _ => l.path = []) (fun _ _ => True) := by
    intro e
    rw [Scoped.ends_declare]
    refine ⟨fun _ => trivial, fun _ _ => ⟨fun _ => rfl, fun _ _ => ?_⟩⟩
    exact ⟨fun _ => trivial, fun _ _ => rfl⟩
  have hends : Ends (Scoped.holdObject className name i? j?) e
      (fun _ => K.Cells) (fun _ => K.Cells) := by
    simp only [Scoped.holdObject, ends_bind]
    refine h.newObject.mono ?_ fun _ _ hc => hc
    rintro v e₁ ⟨h₁, handle, rfl⟩
    refine ((Cells.declare h₁).and (hpath e₁)).mono ?_ fun _ _ hc => hc.1
    rintro l e₂ ⟨h₂, hl⟩
    exact h₂.store (hobject handle className) fun c _ => leads_of_keys (by simp [hl]) c
  exact hends.state

end Contract

namespace Environment

variable {e : Environment}

/-- The environments of sessions. A run may start on any stack, and may stop anywhere. -/
inductive Reached : Environment → Prop
  | init : Reached .init
  | run {m : Machine} {text : String} {n : Node} (h : Reached m.env)
      (htext : Source.tree text = .ok n) : Reached (n.run m).2.env
  | act {e : Environment} {a : Action} (h : Reached e) (ha : a.Outer e) : Reached (a.apply e)
  | object {e : Environment} {j? : Option Int} (h : Reached e) (className name : String)
      (i? : Option Int) (hj : e.Unreleased (j?.getD e.current)) :
      Reached ((Scoped.holdObject className name i? j?).run.run e).2

theorem Reached.consistent (h : Reached e) : Consistent e := by
  induction h with
  | init => exact consistent_init
  | @run m _ n _ _ ih =>
    obtain ⟨ws, he, -⟩ := Contract.run_effect .free n (Contract.free_env m.env) id
    exact (he.steps ih).consistent
  | @act e a _ ha ih =>
    refine (ih.apply ?_).consistent
    match a with
    | .create .. | .leave | .release _ | .newObject .. => trivial
    | .enter _ => exact ha
  | object _ className name i? hj ih => exact (Scoped.steps_holdObject ih hj).consistent

/-- What holds of the cells after every run holds of them in every session. -/
theorem Reached.cells_of_run {K : Contract} (h : Reached e)
    (hrun : ∀ {m : Machine} {text : String} {n : Node}, Reached m.env → Source.tree text = .ok n →
      K.Cells m.env → K.Cells (n.run m).2.env)
    (hobject : ∀ handle c, K.value (.object handle c)) : K.Cells e := by
  induction h with
  | init => exact K.cells_init
  | run h htext ih => exact hrun h htext ih
  | act _ ha ih =>
    refine ih.apply fun l v heq => ?_
    subst heq
    exact ha.elim
  | object _ className name i? _ ih => exact ih.holdObject hobject

theorem Reached.cells {K : Contract} (h : Reached e) (hlenient : ¬ K.strict)
    (hobject : ∀ handle c, K.value (.object handle c)) : K.Cells e := by
  refine h.cells_of_run (fun {m _ n} _ _ hcells => ?_) hobject
  obtain ⟨ws, he, hw⟩ := K.run_effect n ⟨hcells, fun hs => (hlenient hs).elim⟩ hlenient
  exact hcells.effect he hw

/-- Every value in a cell of a session is tidy, so that appending to an array in it, at any depth,
adds a last entry under the next key. -/
theorem tidy_of_reached {i slot : Int} {s : Scope} {v : Value} (h : Reached e)
    (hs : e.scope? i = some s) (hv : (slot, v) ∈ s.cells) :
    v.Tidy (fun _ => True) ∧
      ∀ path t w, v.descend path = .array t →
        (t.append w).entries = t.entries ++ [(.int t.next, w)] := by
  have hcells : (Contract.tidy fun _ => True).Cells e :=
    h.cells id fun handle _ => .object handle trivial
  have htidy : v.Tidy fun _ => True := hcells _ (Assoc.mem_of_get? hs) _ hv
  refine ⟨htidy, fun path t w ht => ?_⟩
  have hinner := htidy.descend path (by simp [ht])
  rw [ht] at hinner
  exact hinner.ordered.entries_append w

/-- The array a program leaves in its first variable. -/
def firstArray? (text : String) : Option (Table Value) := do
  let n ← (Source.tree text).toOption
  let s ← (n.run .init).2.env.scope? globalIndex
  match Assoc.get? 1 s.cells with
  | some (.array t) => some t
  | _ => none

theorem cell_of_firstArray {text : String} {t : Table Value} (h : firstArray? text = some t) :
    ∃ n s, Source.tree text = .ok n ∧ (n.run .init).2.env.scope? globalIndex = some s ∧
      (1, .array t) ∈ s.cells := by
  simp only [firstArray?, Option.bind_eq_bind, Option.bind_eq_some_iff] at h
  obtain ⟨n, hn, s, hs, hcell⟩ := h
  refine ⟨n, s, ?_, hs, ?_⟩
  · generalize Source.tree _ = r at hn ⊢
    cases r with
    | ok n' => exact congrArg _ (Option.some.inj hn)
    | error e => cases hn
  · split at hcell
    · rename_i u hu
      obtain rfl := Option.some.inj hcell
      exact Assoc.mem_of_get? hu
    · cases hcell

def negativeText : String := "$a[-3] = [1, 'x' => $a]; $a[] = 2; 1 % 0; $a = 0;"

/-- A negative key does not move the counter; a run that fails keeps what it stored. -/
theorem tidy_of_reached_negative :
    ∃ t, firstArray? negativeText = some t ∧ t.next = 1 ∧
      (Value.array t).Tidy (fun _ => True) ∧
      (t.append .null).entries = t.entries ++ [(.int 1, .null)] := by
  have hnext : (firstArray? negativeText).map (·.next) = some 1 := by decide +kernel
  obtain ⟨t, ht, htn⟩ := Option.map_eq_some_iff.1 hnext
  obtain ⟨n, s, htree, hs, hmem⟩ := cell_of_firstArray ht
  obtain ⟨htidy, happend⟩ := tidy_of_reached (.run .init htree) hs hmem
  refine ⟨t, ht, htn, htidy, ?_⟩
  have hentries := happend [] t .null (by rw [Value.descend])
  rwa [htn] at hentries

end Environment

end PhpInterpreter
