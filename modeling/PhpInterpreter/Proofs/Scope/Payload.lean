import PhpInterpreter.Proofs.Scope.Contents
import PhpInterpreter.Proofs.Value.Tidy

/-!
The payloads of objects. A payload belongs to the scope its object was made in, but the handle can
be stored in any variable. No operation moves a payload, and a sweep that drops a scope looks at its
cells only. So a payload is there just as long as that scope is in the table, whatever still holds
the handle.
-/

namespace PhpInterpreter

namespace Value

variable {t u : Table Value} {v : Value} {k : Key} {handle : Int} {P : Int → Prop}

/-- An object in the value, at any depth, has the handle. -/
inductive Mentions (handle : Int) : Value → Prop
  | object (className : String) : Mentions handle (.object handle className)
  | entry {t : Table Value} {k : Key} {v : Value} :
      (k, v) ∈ t.entries → Mentions handle v → Mentions handle (.array t)

/-- The objects in the value have handles with `P`. -/
def Holds (P : Int → Prop) (v : Value) : Prop := ∀ handle, v.Mentions handle → P handle

theorem holds_array : Holds P (.array t) ↔ ∀ p ∈ t.entries, Holds P p.2 := by
  constructor
  · intro h p hp handle hm
    exact h handle (.entry hp hm)
  · rintro h handle (_ | ⟨hin, hm⟩)
    exact h _ hin handle hm

theorem Holds.defined (h : Holds P v) : Holds P v.defined := by
  cases v with
  | undefined => exact nofun
  | _ => exact h

theorem Holds.set (ht : Holds P (.array t)) (hv : Holds P v) : Holds P (.array (t.set k v)) := by
  rw [holds_array] at ht ⊢
  intro p hp
  rcases Assoc.mem_insert hp with rfl | hp
  · exact hv
  · exact ht p hp

theorem Holds.replace (ht : Holds P (.array t)) (hv : Holds P v) :
    Holds P (.array (t.replace k v)) := by
  rw [holds_array] at ht ⊢
  intro p hp
  rcases Assoc.mem_modify hp with hp | ⟨w, -, rfl⟩
  · exact ht p hp
  · exact hv

theorem Holds.union (ht : Holds P (.array t)) (hu : Holds P (.array u)) :
    Holds P (.array (Value.union t u)) := by
  refine union_induction (motive := fun r => Holds P (.array r)) ht fun r p hr hp => ?_
  exact hr.set (holds_array.1 hu p hp).defined

end Value

namespace Contract

/-- Values whose objects have handles with `P`. -/
def objects (P : Int → Prop) : Contract where
  value := Value.Holds P
  key _ := True
  fault _ := True
  strict := False
  lenient _ _ := trivial
  loose _ := ⟨fun _ => nofun, fun _ => trivial⟩
  null := nofun
  bool _ := nofun
  number _ := nofun
  neg _ := nofun
  mod _ _ _ := nofun
  string _ := nofun
  empty := Value.holds_array.2 nofun
  set ht _ hv := ht.set hv
  replace _ ht hv := ht.replace hv
  union := .union
  entry ht hin := Value.holds_array.1 ht _ hin
  truncate _ := trivial
  ofString _ := trivial
  fatal _ := trivial
  operandTypes _ _ _ := trivial
  limit _ := trivial
  identical _ _ _ := trivial
  locate _ _ := trivial

theorem Cells.objects_mono {P Q : Int → Prop} {e : Environment} (h : (objects P).Cells e)
    (hPQ : ∀ handle, P handle → Q handle) : (objects Q).Cells e :=
  fun p hp c hc handle hm => hPQ handle (h p hp c hc handle hm)

end Contract

namespace Environment

variable {e e' e₁ e₂ : Environment} {i slot : Int} {i? : Option Int} {s : Scope} {name : String}
  {l : Location} {made : List (Int × Int)}

/-! ## Operations that make no object -/

/-- The scopes of `e'` are scopes of `e`, with the payloads they had. -/
structure Stows (e e' : Environment) : Prop where
  nodup : (Assoc.keys e.scopes).Nodup → (Assoc.keys e'.scopes).Nodup
  nextScope : e'.nextScope = e.nextScope
  nextHandle : e'.nextHandle = e.nextHandle
  heap : ∀ i t, (i, t) ∈ e'.scopes → ∃ s, (i, s) ∈ e.scopes ∧ t.heap = s.heap

theorem Stows.refl (e : Environment) : Stows e e := ⟨id, rfl, rfl, fun _ t ht => ⟨t, ht, rfl⟩⟩

theorem Stows.trans (h : Stows e e₁) (h' : Stows e₁ e₂) : Stows e e₂ where
  nodup hn := h'.nodup (h.nodup hn)
  nextScope := h'.nextScope.trans h.nextScope
  nextHandle := h'.nextHandle.trans h.nextHandle
  heap i t ht := by
    obtain ⟨s, hs, hheap⟩ := h'.heap i t ht
    obtain ⟨r, hr, hheap'⟩ := h.heap i s hs
    exact ⟨r, hr, hheap.trans hheap'⟩

theorem stows_modifyScope {f : Scope → Scope} (hf : ∀ s, (f s).heap = s.heap) :
    Stows e (e.modifyScope i f) := by
  refine ⟨fun hn => by simpa [modifyScope] using hn, rfl, rfl, fun j t ht => ?_⟩
  rcases Assoc.mem_modify ht with ht | ⟨s, hs, heq⟩
  · exact ⟨t, ht, rfl⟩
  · obtain ⟨rfl, rfl⟩ := Prod.mk.inj heq
    exact ⟨s, Assoc.mem_of_get? hs, hf s⟩

theorem stows_dropCell (i slot : Int) (e : Environment) : Stows e (e.dropCell i slot) := by
  obtain ⟨hnodup, -, -, hheap⟩ := stows_modifyScope (e := e) (i := i)
    (f := fun s => { s with cells := Assoc.erase slot s.cells }) fun _ => rfl
  exact ⟨hnodup, rfl, rfl, hheap⟩

theorem stows_dropScope (i : Int) (s : Scope) (e : Environment) : Stows e (e.dropScope i s) := by
  have herase : Stows e { e with scopes := Assoc.erase i e.scopes } :=
    ⟨Assoc.nodup_keys_erase, rfl, rfl, fun _ t ht => ⟨t, Assoc.mem_of_mem_erase ht, rfl⟩⟩
  unfold dropScope
  cases s.outer? with
  | none => exact herase
  | some o => exact herase.trans (stows_modifyScope fun _ => rfl)

theorem stows_foldl {α : Type} {f : Environment → α → Environment} (hf : ∀ e a, Stows e (f e a))
    (as : List α) (e : Environment) : Stows e (as.foldl f e) := by
  induction as generalizing e with
  | nil => exact .refl e
  | cons a rest ih => exact (hf e a).trans (ih _)

theorem stows_sweepScope (e : Environment) (i : Int) : Stows e (e.sweepScope i) := by
  unfold sweepScope
  split
  · exact .refl e
  · rename_i s hs
    have hcells := stows_foldl (fun e slot => stows_dropCell i slot e)
      ((Assoc.keys s.cells).filter fun slot => !e.isBound slot) e
    dsimp only
    split
    · exact hcells.trans (stows_dropScope _ _ _)
    · exact hcells

theorem stows_sweep (e : Environment) : Stows e e.sweep := stows_foldl stows_sweepScope _ e

theorem stows_setName (i slot : Int) (name : String) (e : Environment) :
    Stows e (e.setName i name slot) := stows_modifyScope fun _ => rfl

theorem stows_unbound : Stows e (Scoped.unbound i name slot e) := by
  have herase : Stows e (e.eraseName i name) := stows_modifyScope fun _ => rfl
  simp only [Scoped.unbound]
  split
  · exact herase
  · split
    · exact (herase.trans (stows_dropCell _ _ _)).trans (stows_sweep _)
    · exact herase.trans (stows_sweep _)

theorem stows_declare : Ends (Scoped.declare name i?) e (fun _ => Stows e) (fun _ => Stows e) := by
  rw [Scoped.ends_declare]
  refine ⟨fun _ => .refl e, fun s hs => ⟨fun _ => ?_, fun _ _ => ?_⟩⟩
  · have hcell : Stows e (e.allocate (i?.getD e.current) .null).2 := by
      obtain ⟨hnodup, -, -, hheap⟩ := stows_modifyScope (e := e) (i := i?.getD e.current)
        (f := fun s => { s with cells := Assoc.insert e.nextSlot .null s.cells }) fun _ => rfl
      exact ⟨hnodup, rfl, rfl, hheap⟩
    exact hcell.trans (stows_setName ..)
  · exact ⟨fun _ => .refl e, fun _ _ => .refl e⟩

theorem stows_unset : Ends (Scoped.unset name i?) e (fun _ => Stows e) (fun _ => Stows e) := by
  rw [Scoped.ends_unset]
  exact ⟨fun _ => .refl e, fun s _ => ⟨fun _ => .refl e, fun _ _ => stows_unbound⟩⟩

theorem stows_bind : Ends (Scoped.bind name l i?) e (fun _ => Stows e) (fun _ => Stows e) := by
  unfold Scoped.bind
  split
  · exact .refl e
  · simp only [PhpInterpreter.ends_bind, Scoped.ends_orCurrent, Scoped.ends_get]
    refine ⟨fun s _ => ?_, fun _ => .refl e⟩
    split
    · exact .refl e
    · simp only [PhpInterpreter.ends_bind, Scoped.ends_get, ends_modify]
      refine stows_unset.mono (fun _ e' h => ⟨fun _ _ => ?_, fun _ => h⟩) fun _ _ h => h
      exact h.trans (stows_setName ..)

theorem stows_bindGlobal :
    Ends (Scoped.bindGlobal name) e (fun _ => Stows e) (fun _ => Stows e) := by
  simp only [Scoped.bindGlobal, PhpInterpreter.ends_bind]
  refine stows_declare.mono (fun l e' h => ?_) fun _ _ h => h
  simp only [ends_getThe]
  split
  · simp only [PhpInterpreter.ends_bind, ends_pure]
    exact stows_bind.mono (fun _ _ h' => h.trans h') fun _ _ h' => h.trans h'
  · exact h

theorem stows_release : Ends (Scoped.release i) e (fun _ => Stows e) (fun _ => Stows e) := by
  simp only [Scoped.release, PhpInterpreter.ends_bind, ends_getThe]
  split
  · exact .refl e
  · split
    · exact .refl e
    · simp only [PhpInterpreter.ends_bind, Scoped.ends_get, ends_modify]
      refine ⟨fun _ _ => Stows.trans ?_ (stows_sweep _), fun _ => .refl e⟩
      exact stows_modifyScope fun _ => rfl

theorem stows_store {v : Value} :
    Ends (Scoped.store l v) e (fun _ => Stows e) (fun _ => Stows e) := by
  rw [Scoped.ends_store]
  refine ⟨fun _ => .refl e, fun _ => ⟨fun _ => .refl e, fun s hs => ⟨fun _ => .refl e, ?_⟩⟩⟩
  exact fun old hold => ⟨fun _ => .refl e, fun new hnew => stows_modifyScope fun _ => rfl⟩

/-! ## Objects made -/

/-- Every scope of the table has the payloads of just the objects that were made in it; the objects
made are given by their handles and these scopes. -/
structure Stocked (made : List (Int × Int)) (e : Environment) : Prop where
  nodup : (Assoc.keys e.scopes).Nodup
  scopes : ∀ i s, (i, s) ∈ e.scopes → i < e.nextScope
  heap : ∀ i s, (i, s) ∈ e.scopes → ∀ handle, handle ∈ s.heap ↔ (handle, i) ∈ made
  numbered : ∀ handle i, (handle, i) ∈ made → handle < e.nextHandle ∧ i < e.nextScope
  unique : ∀ handle i j, (handle, i) ∈ made → (handle, j) ∈ made → i = j

theorem stocked_init : Stocked [] init := by
  have hscope : ∀ i s, (i, s) ∈ init.scopes → i = globalIndex ∧ s = .new "global" .global none := by
    intro i s hs
    simpa [init] using hs
  refine ⟨by decide, fun i s hs => ?_, fun i s hs handle => ?_, by simp, by simp⟩
  · obtain ⟨rfl, -⟩ := hscope i s hs
    decide
  · obtain ⟨-, rfl⟩ := hscope i s hs
    simp [Scope.new]

theorem Stocked.stows (h : Stocked made e) (hs : Stows e e') : Stocked made e' where
  nodup := hs.nodup h.nodup
  scopes i t ht := by
    obtain ⟨s, hin, -⟩ := hs.heap i t ht
    rw [hs.nextScope]
    exact h.scopes i s hin
  heap i t ht handle := by
    obtain ⟨s, hin, heq⟩ := hs.heap i t ht
    rw [heq, h.heap i s hin]
  numbered := by
    rw [hs.nextScope, hs.nextHandle]
    exact h.numbered
  unique := h.unique

/-- A new scope has a new number, and no payload. -/
theorem Stocked.create {kind : String} {outer? : Option Int} (h : Stocked made e) :
    Ends (Scoped.create name kind outer?) e (fun _ => Stocked made) (fun _ => Stocked made) := by
  unfold Scoped.create
  split
  · exact h
  · rename_i k _
    simp only [PhpInterpreter.ends_bind, Scoped.ends_orCurrent, Scoped.ends_get, ends_modifyGet]
    refine ⟨fun _ _ => ?_, fun _ => h⟩
    have hnew : Stocked made { e with
        scopes := Assoc.insert e.nextScope
          (Scope.new name k (some (outer?.getD e.current))) e.scopes
        nextScope := e.nextScope + 1 } := by
      refine ⟨Assoc.nodup_keys_insert h.nodup, fun i s hs => ?_, fun i s hs handle => ?_,
        fun handle i hm => ?_, h.unique⟩
      · rcases Assoc.mem_insert hs with heq | hs
        · obtain ⟨rfl, -⟩ := Prod.mk.inj heq
          exact Int.lt_succ _
        · exact Int.lt_trans (h.scopes i s hs) (Int.lt_succ _)
      · rcases Assoc.mem_insert hs with heq | hs
        · obtain ⟨rfl, rfl⟩ := Prod.mk.inj heq
          refine iff_of_false (by simp [Scope.new]) fun hm => ?_
          exact Int.lt_irrefl _ (h.numbered handle _ hm).2
        · exact h.heap i s hs handle
      · exact ⟨(h.numbered handle i hm).1, Int.lt_trans (h.numbered handle i hm).2 (Int.lt_succ _)⟩
    exact hnew.stows (stows_modifyScope fun _ => rfl)

/-- A new object has a new handle, which is never used again even where there is no such scope. -/
theorem Stocked.newObject {c : String} (h : Stocked made e) :
    Ends (Scoped.newObject c i?) e
      (fun v e' => v = .object e.nextHandle c ∧ e.scope? (i?.getD e.current) ≠ none ∧
        Stocked ((e.nextHandle, i?.getD e.current) :: made) e')
      (fun _ e' => e.scope? (i?.getD e.current) = none ∧ Stocked made e') := by
  simp only [Scoped.newObject, PhpInterpreter.ends_bind, Scoped.ends_orCurrent, ends_modifyGet,
    Scoped.ends_get, ends_modify, ends_pure]
  have hfresh : ∀ handle i, (handle, i) ∈ made → handle < e.nextHandle + 1 ∧ i < e.nextScope := by
    intro handle i hm
    obtain ⟨hhandle, hi⟩ := h.numbered handle i hm
    exact ⟨Int.lt_trans hhandle (Int.lt_succ _), hi⟩
  refine ⟨fun s hs => ⟨trivial, ?_, ?_⟩, fun hnone => ⟨hnone, ?_⟩⟩
  · have hs' : e.scope? (i?.getD e.current) = some s := hs
    simp [hs']
  · have hs' : Assoc.get? (i?.getD e.current) e.scopes = some s := hs
    refine ⟨by simpa [modifyScope] using h.nodup, fun j t ht => ?_, fun j t ht handle => ?_,
      fun handle j hm => ?_, fun handle j k hj hk => ?_⟩
    · rcases Assoc.mem_modify ht with ht | ⟨r, hr, heq⟩
      · exact h.scopes j t ht
      · obtain ⟨rfl, -⟩ := Prod.mk.inj heq
        exact h.scopes _ r (Assoc.mem_of_get? hr)
    · have hget := Assoc.get?_of_mem (by simpa [modifyScope] using h.nodup) ht
      simp only [modifyScope, Assoc.get?_modify] at hget
      split at hget
      · rename_i hj
        subst j
        obtain ⟨r, hr, rfl⟩ := Option.map_eq_some_iff.1 hget
        simp [h.heap _ r (Assoc.mem_of_get? hr), or_comm]
      · rename_i hj
        simp [h.heap j t (Assoc.mem_of_get? hget), Ne.symm hj]
    · rcases List.mem_cons.1 hm with heq | hm
      · obtain ⟨rfl, rfl⟩ := Prod.mk.inj heq
        exact ⟨Int.lt_succ _, h.scopes _ s (Assoc.mem_of_get? hs')⟩
      · exact hfresh handle j hm
    · -- The new handle is none of the old ones.
      have hnew : ∀ k, (e.nextHandle, k) ∉ made := fun k hm =>
        Int.lt_irrefl _ (h.numbered _ k hm).1
      rcases List.mem_cons.1 hj with heq | hj <;> rcases List.mem_cons.1 hk with heq' | hk
      · exact (Prod.mk.inj heq).2.trans (Prod.mk.inj heq').2.symm
      · exact absurd ((Prod.mk.inj heq).1 ▸ hk) (hnew k)
      · exact absurd ((Prod.mk.inj heq').1 ▸ hj) (hnew j)
      · exact h.unique handle j k hj hk
  · exact ⟨h.nodup, h.scopes, h.heap, hfresh, h.unique⟩

end Environment

/-! ## Courses -/

namespace Action

/-- The handle of the object that an action makes, and the scope it is made in. -/
def makes (e : Environment) : Action → List (Int × Int)
  | newObject _ i? =>
    if (e.scope? (i?.getD e.current)).isSome then [(e.nextHandle, i?.getD e.current)] else []
  | _ => []

/-- The objects in what is stored were made. -/
def Supplied (made : List (Int × Int)) : Action → Prop
  | store _ v => v.Holds fun handle => ∃ i, (handle, i) ∈ made
  | _ => True

end Action

namespace Environment

variable {e : Environment} {made : List (Int × Int)}

/-- Any actions from the fresh environment on, with the objects they made. -/
inductive Making : List (Int × Int) → Environment → Prop
  | init : Making [] .init
  | act {made : List (Int × Int)} {e : Environment} {a : Action} (h : Making made e)
      (ha : a.Supplied made) : Making (a.makes e ++ made) (a.apply e)

theorem Stocked.apply {a : Action} (h : Stocked made e) :
    Stocked (a.makes e ++ made) (a.apply e) := by
  cases a with
  | create name kind outer? => exact h.create.state
  | enter i =>
    have hends : Ends (Scoped.enter i) e (fun _ => Stocked made) (fun _ => Stocked made) := by
      simp only [Scoped.enter, PhpInterpreter.ends_bind, Scoped.ends_get, ends_modify]
      exact ⟨fun _ _ => ⟨h.nodup, h.scopes, h.heap, h.numbered, h.unique⟩, fun _ => h⟩
    exact hends.state
  | leave =>
    have hends : Ends Scoped.leave e (fun _ => Stocked made) (fun _ => Stocked made) := by
      simp only [Scoped.leave, PhpInterpreter.ends_bind, ends_getThe]
      split
      · exact h
      · exact ⟨h.nodup, h.scopes, h.heap, h.numbered, h.unique⟩
    exact hends.state
  | release i => exact h.stows stows_release.state
  | declare name i? => exact h.stows stows_declare.state
  | unset name i? => exact h.stows stows_unset.state
  | bindGlobal name => exact h.stows stows_bindGlobal.state
  | bind name l i? => exact h.stows stows_bind.state
  | store l v => exact h.stows stows_store.state
  | newObject c i? =>
    have hends : Ends (Scoped.newObject c i?) e
        (fun _ => Stocked ((Action.newObject c i?).makes e ++ made))
        (fun _ => Stocked ((Action.newObject c i?).makes e ++ made)) := by
      refine h.newObject.mono ?_ ?_
      · rintro v e' ⟨-, hsome, hstocked⟩
        simpa [Action.makes, Option.isSome_iff_ne_none, hsome] using hstocked
      · rintro - e' ⟨hnone, hstocked⟩
        simpa [Action.makes, hnone] using hstocked
    exact hends.state

theorem Making.stocked (h : Making made e) : Stocked made e := by
  induction h with
  | init => exact stocked_init
  | act _ _ ih => exact ih.apply

/-- All objects in cells were made. -/
theorem Making.cells (h : Making made e) :
    (Contract.objects fun handle => ∃ i, (handle, i) ∈ made).Cells e := by
  induction h with
  | init => exact Contract.cells_init _
  | act _ ha ih =>
    refine (ih.apply fun l v heq => ?_).objects_mono fun handle hmade => ?_
    · subst heq
      exact ⟨ha, fun _ _ => trivial⟩
    · obtain ⟨i, hi⟩ := hmade
      exact ⟨i, List.mem_append_right _ hi⟩

/-- Whatever was done, an object in a cell was made in one scope, and its payload is found there and
nowhere else: it is in the table just as long as that scope is. -/
theorem payload_iff {i slot handle : Int} {s : Scope} {v : Value} (h : Making made e)
    (hs : e.scope? i = some s) (hv : (slot, v) ∈ s.cells) (hm : v.Mentions handle) :
    ∃ home, (handle, home) ∈ made ∧ (∀ j, (handle, j) ∈ made → j = home) ∧
      (∀ j t, e.scope? j = some t → (handle ∈ t.heap ↔ j = home)) ∧
      ((∃ j t, e.scope? j = some t ∧ handle ∈ t.heap) ↔ ∃ t, e.scope? home = some t) := by
  have hstocked := h.stocked
  obtain ⟨home, hmade⟩ := h.cells (i, s) (Assoc.mem_of_get? hs) (slot, v) hv handle hm
  have hhome : ∀ j, (handle, j) ∈ made → j = home := fun j hj =>
    hstocked.unique handle j home hj hmade
  have hheap : ∀ j t, e.scope? j = some t → (handle ∈ t.heap ↔ j = home) := by
    intro j t ht
    rw [hstocked.heap j t (Assoc.mem_of_get? ht)]
    refine ⟨hhome j, ?_⟩
    rintro rfl
    exact hmade
  refine ⟨home, hmade, hhome, hheap, ?_, ?_⟩
  · rintro ⟨j, t, ht, hin⟩
    obtain rfl := (hheap j t ht).1 hin
    exact ⟨t, ht⟩
  · rintro ⟨t, ht⟩
    exact ⟨home, t, ht, (hheap home t ht).2 rfl⟩

/-- A global variable keeps the handle of an object made in a function's scope, but with the scope
the payload is gone. -/
theorem payload_released : ∃ made e s,
    Making made e ∧ e.scope? globalIndex = some s ∧ s.released = false ∧ s.names = [("o", 1)] ∧
      s.cells = [(1, .object 1 "stdClass")] ∧ ¬ ∃ j t, e.scope? j = some t ∧ 1 ∈ t.heap := by
  have run : ∃ e s, Making [(1, 1)] e ∧ e.scope? globalIndex = some s ∧ s.released = false ∧
      s.names = [("o", 1)] ∧ s.cells = [(1, .object 1 "stdClass")] ∧ e.scope? 1 = none := by
    have created := Making.init.act (a := .create "f" "function" none) trivial
    have declared := created.act (a := .declare "o" none) trivial
    have made := declared.act (a := .newObject "stdClass" (some 1)) trivial
    have stored := made.act (a := .store ⟨0, 1, [], none⟩ (.object 1 "stdClass")) <| by
      rintro handle ⟨⟩
      exact ⟨1, List.mem_cons_self⟩
    have released := stored.act (a := .release 1) trivial
    exact ⟨_, _, released, rfl, rfl, rfl, rfl, rfl⟩
  obtain ⟨e, s, hmaking, hs, hreleased, hnames, hcells, hgone⟩ := run
  have hcell : (1, Value.object 1 "stdClass") ∈ s.cells := by
    rw [hcells]
    exact List.mem_cons_self
  obtain ⟨home, hhome, -, -, hiff⟩ := payload_iff hmaking hs hcell (.object "stdClass")
  obtain rfl : home = 1 := by simpa using hhome
  refine ⟨_, e, s, hmaking, hs, hreleased, hnames, hcells, fun hpayload => ?_⟩
  obtain ⟨t, ht⟩ := hiff.1 hpayload
  rw [hgone] at ht
  cases ht

end Environment

end PhpInterpreter
