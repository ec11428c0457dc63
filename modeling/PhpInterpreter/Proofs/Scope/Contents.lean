import PhpInterpreter.Proofs.Machine.Effect
import PhpInterpreter.Proofs.Scope.Cell
import PhpInterpreter.Proofs.Value.Contract

/-!
What holds of every cell of an environment. Whatever is done to names and scopes, cells that stay
keep their values and new ones hold null; so cells hold values of a contract as long as only such
values are stored.
-/

namespace PhpInterpreter

namespace Environment

open Scoped

variable {e e' : Environment} {i : Int} {i? : Option Int} {name : String} {l : Location} {v : Value}
  {P : Int → Value → Prop}

/-- Every cell, given by its slot and its value, has `P`. -/
def Every (P : Int → Value → Prop) (e : Environment) : Prop :=
  ∀ p ∈ e.scopes, ∀ c ∈ p.2.cells, P c.1 c.2

theorem Every.shrinks (h : e.Every P) (hs : Shrinks e e') : e'.Every P := by
  rintro ⟨i, t⟩ hp c hc
  obtain ⟨s, hin, -, hcells⟩ := hs i t hp
  exact h (i, s) hin c (hcells c hc)

theorem Every.modifyScope {f : Scope → Scope} (h : e.Every P)
    (hf : ∀ s, (∀ c ∈ s.cells, P c.1 c.2) → ∀ c ∈ (f s).cells, P c.1 c.2) :
    (e.modifyScope i f).Every P := by
  rintro ⟨j, t⟩ hp c hc
  rcases Assoc.mem_modify hp with hp | ⟨s, hin, heq⟩
  · exact h (j, t) hp c hc
  · obtain ⟨rfl, rfl⟩ := Prod.mk.inj heq
    exact hf s (h _ (Assoc.mem_of_get? hin)) c hc

theorem every_init (P : Int → Value → Prop) : init.Every P := by
  intro p hp c hc
  simp only [init, List.mem_singleton] at hp
  subst hp
  simp [Scope.new] at hc

theorem Every.declare (h : e.Every P) (hnew : P e.nextSlot .null) :
    Ends (declare name i?) e (fun _ => Every P) (fun _ => Every P) := by
  rw [ends_declare]
  refine ⟨fun _ => h, fun s hs => ⟨fun _ => ?_, fun _ _ => ⟨fun _ => h, fun _ _ => h⟩⟩⟩
  have hcell : (e.modifyScope (i?.getD e.current) fun s =>
      { s with cells := Assoc.insert e.nextSlot .null s.cells }).Every P := by
    refine h.modifyScope fun s hs c hc => ?_
    rcases Assoc.mem_insert hc with rfl | hc
    · exact hnew
    · exact hs c hc
  exact Every.modifyScope (e := (e.allocate (i?.getD e.current) .null).2) hcell fun _ hs => hs

theorem Every.unset (h : e.Every P) :
    Ends (unset name i?) e (fun _ => Every P) (fun _ => Every P) := by
  rw [ends_unset]
  refine ⟨fun _ => h, fun s hs => ⟨fun _ => h, fun slot _ => ?_⟩⟩
  have herase : (e.eraseName (i?.getD e.current) name).Every P := h.modifyScope fun _ hs => hs
  simp only [unbound]
  split
  · exact herase
  · split
    · exact (herase.shrinks (shrinks_dropCell _ _ _)).shrinks (shrinks_sweep _)
    · exact herase.shrinks (shrinks_sweep _)

theorem Every.bind (h : e.Every P) :
    Ends (bind name l i?) e (fun _ => Every P) (fun _ => Every P) := by
  unfold Scoped.bind
  split
  · exact h
  · simp only [PhpInterpreter.ends_bind, ends_orCurrent, Scoped.ends_get]
    refine ⟨fun s _ => ?_, fun _ => h⟩
    split
    · exact h
    · simp only [PhpInterpreter.ends_bind, Scoped.ends_get, ends_modify]
      refine h.unset.mono (fun _ e' h' => ⟨fun _ _ => ?_, fun _ => h'⟩) fun _ _ h' => h'
      exact h'.modifyScope fun _ hs => hs

theorem Every.bindGlobal (h : e.Every P) (hnew : P e.nextSlot .null) :
    Ends (bindGlobal name) e (fun _ => Every P) (fun _ => Every P) := by
  simp only [Scoped.bindGlobal, PhpInterpreter.ends_bind]
  refine (h.declare hnew).mono (fun l e' h' => ?_) fun _ _ h' => h'
  simp only [ends_getThe]
  split
  · simp only [PhpInterpreter.ends_bind, ends_pure]
    exact h'.bind
  · exact h'

theorem Every.create {kind : String} {outer? : Option Int} (h : e.Every P) :
    Ends (create name kind outer?) e (fun _ => Every P) (fun _ => Every P) := by
  unfold Scoped.create
  split
  · exact h
  · rename_i k _
    simp only [PhpInterpreter.ends_bind, ends_orCurrent, Scoped.ends_get, ends_modifyGet]
    refine ⟨fun _ _ => ?_, fun _ => h⟩
    have hnew : Every P { e with
        scopes := Assoc.insert e.nextScope
          (Scope.new name k (some (outer?.getD e.current))) e.scopes
        nextScope := e.nextScope + 1 } := by
      intro p hp c hc
      rcases Assoc.mem_insert hp with rfl | hp
      · simp [Scope.new] at hc
      · exact h p hp c hc
    exact hnew.modifyScope fun _ hs => hs

theorem Every.release (h : e.Every P) :
    Ends (release i) e (fun _ => Every P) (fun _ => Every P) := by
  simp only [Scoped.release, PhpInterpreter.ends_bind, ends_getThe]
  split
  · exact h
  · split
    · exact h
    · simp only [PhpInterpreter.ends_bind, Scoped.ends_get, ends_modify]
      refine ⟨fun _ _ => Every.shrinks ?_ (shrinks_sweep _), fun _ => h⟩
      exact h.modifyScope fun _ hs => hs

theorem Every.newObject {c : String} (h : e.Every P) :
    Ends (newObject c i?) e (fun v e' => e'.Every P ∧ ∃ handle, v = .object handle c)
      (fun _ => Every P) := by
  simp only [Scoped.newObject, PhpInterpreter.ends_bind, ends_orCurrent, ends_modifyGet,
    Scoped.ends_get, ends_modify, ends_pure]
  refine ⟨fun _ _ => ⟨?_, _, rfl⟩, fun _ => h⟩
  exact Every.modifyScope (e := { e with nextHandle := _ }) h fun _ hs => hs

/-- No action but a store changes a cell. -/
theorem Every.apply {a : Action} (h : e.Every P) (hnew : P e.nextSlot .null)
    (hstore : ∀ l v, a ≠ .store l v) : (a.apply e).Every P := by
  cases a with
  | create name kind outer? => exact h.create.state
  | enter i =>
    have hends : Ends (enter i) e (fun _ => Every P) (fun _ => Every P) := by
      simp only [enter, PhpInterpreter.ends_bind, Scoped.ends_get, ends_modify]
      exact ⟨fun _ _ => h, fun _ => h⟩
    exact hends.state
  | leave =>
    have hends : Ends leave e (fun _ => Every P) (fun _ => Every P) := by
      simp only [leave, PhpInterpreter.ends_bind, ends_getThe]
      split
      · exact h
      · exact h
    exact hends.state
  | release i => exact h.release.state
  | declare name i? => exact (h.declare hnew).state
  | unset name i? => exact h.unset.state
  | bindGlobal name => exact (h.bindGlobal hnew).state
  | bind name l i? => exact h.bind.state
  | store l v => exact absurd rfl (hstore l v)
  | newObject c i? => exact (h.newObject.mono (fun _ _ h' => h'.1) fun _ _ h' => h').state

end Environment

namespace Contract

open Environment Scoped

variable {K : Contract} {e e' : Environment} {i? : Option Int} {name : String} {l : Location}
  {v : Value}

/-- Every cell holds a value of the contract. -/
def Cells (K : Contract) (e : Environment) : Prop := e.Every fun _ => K.value

/-- Values of the contract are written, under keys of the contract. -/
def Writes (K : Contract) (ws : List Write) : Prop :=
  ∀ w ∈ ws, K.value w.2 ∧ ∀ k ∈ w.1.path, K.key k

theorem cells_init (K : Contract) : K.Cells init := every_init _

theorem Cells.read_load (h : K.Cells e) (l : Location) : K.read (e.load l) := by
  unfold load
  split
  · exact K.read_undefined
  · rename_i v hv
    obtain ⟨s, hs, hslot⟩ := Option.bind_eq_some_iff.1 hv
    have hread : K.read v := .inr (h _ (Assoc.mem_of_get? hs) _ (Assoc.mem_of_get? hslot))
    split
    · exact read_descend hread _
    · split
      · exact .inr (K.string _)
      · exact K.read_undefined
    · exact K.read_undefined

theorem Cells.declare (h : K.Cells e) :
    Ends (declare name i?) e (fun _ => K.Cells) (fun _ => K.Cells) := Every.declare h K.null

theorem Cells.store (h : K.Cells e) (hv : K.value v)
    (hl : ∀ c, e.cell? l = some c → K.Leads c l.path) :
    Ends (store l v) e (fun _ => K.Cells) (fun _ => K.Cells) := by
  rw [ends_store]
  refine ⟨fun _ => h, fun _ => ⟨fun _ => h, fun s hs => ⟨fun _ => h, fun old hold => ?_⟩⟩⟩
  refine ⟨fun _ => h, fun new hnew => Every.modifyScope h fun t ht c hc => ?_⟩
  have hread : K.read old := .inr (h _ (Assoc.mem_of_get? hs) _ (Assoc.mem_of_get? hold))
  have hcell : e.cell? l = some old := by simp [cell?, hs, hold]
  rcases Assoc.mem_modify hc with hc | ⟨w, _, hw⟩
  · exact ht c hc
  · exact hw ▸ value_setAt? hread (hl old hcell) hv hnew

/-- Every action keeps the contract of the cells, if what it stores keeps it. -/
theorem Cells.apply {a : Action} (h : K.Cells e)
    (hstore : ∀ l v, a = .store l v → K.value v ∧ ∀ k ∈ l.path, K.key k) : K.Cells (a.apply e) := by
  by_cases ha : ∃ l v, a = .store l v
  · obtain ⟨l, v, rfl⟩ := ha
    obtain ⟨hv, hk⟩ := hstore l v rfl
    exact (h.store hv fun c _ => leads_of_keys hk c).state
  · exact Every.apply h K.null fun l v heq => ha ⟨l, v, heq⟩

theorem Cells.effect {ws : List Write} (h : K.Cells e) (he : Effect e ws e') (hw : K.Writes ws) :
    K.Cells e' := by
  induction he with
  | refl => exact h
  | act ha =>
    refine h.apply fun l v ha' => ?_
    subst ha'
    exact ha.elim
  | store hr =>
    obtain ⟨hv, hk⟩ := hw _ List.mem_cons_self
    exact (h.store hv fun c _ => leads_of_keys hk c).of_ok hr
  | trans _ _ ih ih' =>
    refine ih' (ih h fun w hin => ?_) fun w hin => ?_
    · exact hw w (List.mem_append_left _ hin)
    · exact hw w (List.mem_append_right _ hin)

end Contract

end PhpInterpreter
