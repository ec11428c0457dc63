import PhpInterpreter.Proofs.Outcome
import PhpInterpreter.Proofs.Scope.Change

/-!
The operations on environments: how each of them ends, and that from a consistent environment it
leads to a consistent one, in which no slot or scope that is gone has come back.
-/

namespace PhpInterpreter

namespace Environment

variable {e e' : Environment} {i j slot : Int} {s t : Scope} {name : String} {l : Location}

/-- The name, in the scope `i`, stands for the whole slot at `l`. -/
def Names (e : Environment) (i : Int) (name : String) (l : Location) : Prop :=
  ∃ s, e.scope? i = some s ∧ Assoc.get? name s.names = some l.slot ∧
    Assoc.get? l.slot e.owners = some l.scope ∧ l.path = [] ∧ l.char? = none

/-- The scope `i`, if it is there, is not released. -/
def Unreleased (e : Environment) (i : Int) : Prop :=
  ∀ s, e.scope? i = some s → s.released = false

theorem IsOpen.unreleased (h : e.IsOpen i) : e.Unreleased i := by
  obtain ⟨s, hs, hr⟩ := h
  intro t ht
  obtain rfl : s = t := by simpa [hs] using ht
  exact hr

theorem IsOpen.scope?_ne_none (h : e.IsOpen i) : e.scope? i ≠ none := by
  obtain ⟨s, hs, -⟩ := h
  simp [hs]

/-- Slots and scopes are only added under new numbers; an old slot stays where it is as long as
it is there. -/
structure Extends (e e' : Environment) : Prop where
  slots : e.nextSlot ≤ e'.nextSlot
  scopes : e.nextScope ≤ e'.nextScope
  held : ∀ i slot, slot < e.nextSlot → e'.Holds i slot → e.Holds i slot
  table : ∀ i, i < e.nextScope → i ∈ Assoc.keys e'.scopes → i ∈ Assoc.keys e.scopes

theorem Extends.refl (e : Environment) : Extends e e :=
  ⟨Int.le_refl _, Int.le_refl _, fun _ _ _ h => h, fun _ _ h => h⟩

theorem Extends.trans {e₁ e₂ e₃ : Environment} (h : Extends e₁ e₂) (h' : Extends e₂ e₃) :
    Extends e₁ e₃ where
  slots := Int.le_trans h.slots h'.slots
  scopes := Int.le_trans h.scopes h'.scopes
  held i slot hlt hh := h.held i slot hlt (h'.held i slot (Int.lt_of_lt_of_le hlt h.slots) hh)
  table i hlt hi := h.table i hlt (h'.table i (Int.lt_of_lt_of_le hlt h.scopes) hi)

theorem Shrinks.extends (h : Shrinks e e') (hl : Linked e) (hslot : e'.nextSlot = e.nextSlot)
    (hscope : e'.nextScope = e.nextScope) : Extends e e' where
  slots := Int.le_of_eq hslot.symm
  scopes := Int.le_of_eq hscope.symm
  held := by
    rintro i slot - ⟨t, ht, hmem⟩
    obtain ⟨s, hs, -, hc⟩ := h i t (Assoc.mem_of_get? ht)
    obtain ⟨c, hct, rfl⟩ := List.mem_map.1 hmem
    exact ⟨s, (mem_scopes_iff hl.scopes_nodup).1 hs, Assoc.mem_keys_of_mem (hc c hct)⟩
  table := by
    intro i _ hi
    obtain ⟨t, ht⟩ := Assoc.mem_keys_iff.1 hi
    obtain ⟨s, hs, -⟩ := h i t (Assoc.mem_of_get? ht)
    exact Assoc.mem_keys_of_mem hs

theorem extends_modifyScope {f : Scope → Scope}
    (hf : ∀ s, e.scope? i = some s → Assoc.keys (f s).cells = Assoc.keys s.cells) :
    Extends e (e.modifyScope i f) where
  slots := Int.le_refl _
  scopes := Int.le_refl _
  held _ _ _ hh := (holds_modifyScope hf).1 hh
  table _ _ hi := by simpa [modifyScope] using hi

theorem Linked.sweep_extends (h : Linked e) : Extends e e.sweep := by
  have hrest := h.sweep_spec.2.2
  exact (shrinks_sweep e).extends h (congrArg (·.nextSlot) hrest) (congrArg (·.nextScope) hrest)

/-- A step between consistent environments. -/
structure Steps (e e' : Environment) : Prop where
  consistent : Consistent e'
  grows : Extends e e'

theorem Consistent.steps (h : Consistent e) : Steps e e := ⟨h, Extends.refl e⟩

theorem Steps.trans {e₁ e₂ e₃ : Environment} (h : Steps e₁ e₂) (h' : Steps e₂ e₃) :
    Steps e₁ e₃ := ⟨h'.consistent, h.grows.trans h'.grows⟩

/-- Other open scopes to be in and to go back to. -/
theorem Consistent.steps_active {back : List Int} (h : Consistent e) (hi : e.IsOpen i)
    (hback : ∀ j ∈ back, e.IsOpen j) : Steps e { e with current := i, entered := back } where
  consistent := by
    refine ⟨⟨h.scopes_nodup, h.owners_nodup, ?_, h.owner_iff, h.slot_lt, h.global_open, hi, hback⟩,
      h.kept⟩
    intro j t ht
    exact (h.fits j t ht).mono (Int.le_refl _) (fun _ _ _ k hk => ⟨k, hk⟩) rfl
  grows := ⟨Int.le_refl _, Int.le_refl _, fun _ _ _ hh => hh, fun _ _ hj => hj⟩

/-- Whatever is linked becomes consistent by a sweep. -/
theorem Linked.steps_sweep (h : Linked e) : Steps e e.sweep := ⟨h.sweep_spec.1, h.sweep_extends⟩

end Environment

namespace Scoped

open Environment

variable {α : Type} {e : Environment} {i : Int} {i? : Option Int} {s : Scope} {name : String}
  {l : Location} {E : Breach → Environment → Prop}

@[simp] theorem ends_fail (b : Breach) {Q : α → Environment → Prop} :
    Ends (fail b : Scoped α) e Q E ↔ E b e := Iff.rfl

@[simp] theorem ends_orCurrent {Q : Int → Environment → Prop} :
    Ends (orCurrent i?) e Q E ↔ Q (i?.getD e.current) e := Iff.rfl

theorem ends_get {Q : Scope → Environment → Prop} :
    Ends (get i) e Q E ↔
      (∀ s, e.scope? i = some s → Q s e) ∧ (e.scope? i = none → E (.unknownScope i) e) := by
  simp only [get, ends_bind, ends_getThe]
  cases e.scope? i <;> simp

/-! ## Scopes -/

theorem ends_create {kind : String} {outer? : Option Int} (h : Consistent e) :
    Ends (create name kind outer?) e (fun _ e' => Steps e e') (fun _ e' => e' = e) := by
  unfold create
  split
  · simp
  · rename_i k hk
    simp only [ends_bind, ends_orCurrent, ends_get, ends_modifyGet]
    refine ⟨fun t ht => ?_, fun _ => trivial⟩
    change Steps e (e.addScope name k (outer?.getD e.current))
    have hfree := scope?_nextScope h.toLinked
    refine ⟨h.addScope ht, Int.le_refl _, Int.le_add_one (Int.le_refl _), ?_, ?_⟩
    · exact fun _ _ _ hh => (holds_addScope hfree ht).1 hh
    · intro j hj hin
      obtain ⟨s, hs⟩ := Assoc.mem_keys_iff.1 hin
      change (e.addScope name k (outer?.getD e.current)).scope? j = some s at hs
      rw [scope?_addScope hfree ht, if_neg (Int.ne_of_lt hj)] at hs
      obtain ⟨o, ho, -⟩ := Option.map_eq_some_iff.1 hs
      exact Assoc.mem_keys_of_get? ho

theorem ends_enter (h : Consistent e) (hi : e.Unreleased i) :
    Ends (enter i) e (fun _ e' => Steps e e') (fun _ e' => e' = e) := by
  simp only [enter, ends_bind, ends_get, ends_modify]
  refine ⟨fun s hs => h.steps_active ⟨s, hs, hi s hs⟩ fun j hj => ?_, fun _ => trivial⟩
  rcases List.mem_cons.1 hj with rfl | hj
  · exact h.current_open
  · exact h.entered_open j hj

theorem ends_leave (h : Consistent e) :
    Ends leave e (fun _ e' => Steps e e') (fun _ e' => e' = e) := by
  simp only [leave, ends_bind, ends_getThe]
  cases hin : e.entered with
  | nil => simp
  | cons back rest =>
    simp only [ends_bind, ends_set, ends_pure]
    exact h.steps_active (h.entered_open back (by simp [hin]))
      fun j hj => h.entered_open j (by simp [hin, hj])

theorem ends_release (h : Consistent e) :
    Ends (release i) e (fun _ e' => Steps e e') (fun _ e' => e' = e) := by
  simp only [release, ends_bind, ends_getThe]
  split
  · simp
  · rename_i hglobal
    split
    · simp
    · rename_i hactive
      simp only [Bool.or_eq_true, decide_eq_true_eq, List.contains_iff_mem, not_or] at hactive
      simp only [ends_bind, ends_get, ends_modify]
      refine ⟨fun s hs => ?_, fun _ => trivial⟩
      have hkeeps : ∀ t, e.scope? i = some t →
          e.Keeps i t { t with names := [], released := true } := by
        intro t ht
        exact ⟨rfl, rfl, rfl, rfl, List.nodup_nil, fun _ _ hn => absurd hn List.not_mem_nil,
          fun _ => rfl, fun _ _ => ⟨hglobal, hactive⟩⟩
      have hl := h.toLinked.modifyScope hkeeps
      exact ⟨hl.steps_sweep.consistent,
        (extends_modifyScope fun t ht => (hkeeps t ht).keys).trans hl.steps_sweep.grows⟩

/-! ## Names -/

theorem ends_lookup {Q : Option Location → Environment → Prop} :
    Ends (lookup name i?) e Q E ↔
      (e.scope? (i?.getD e.current) = none → E (.unknownScope (i?.getD e.current)) e) ∧
      ∀ s, e.scope? (i?.getD e.current) = some s →
        (Assoc.get? name s.names = none → Q none e) ∧
        ∀ slot, Assoc.get? name s.names = some slot →
          (Assoc.get? slot e.owners = none → E (.noOwner slot) e) ∧
          ∀ o, Assoc.get? slot e.owners = some o → Q (some ⟨o, slot, [], none⟩) e := by
  simp only [lookup, get, owner, ends_bind, ends_orCurrent, ends_getThe]
  cases e.scope? (i?.getD e.current) with
  | none => simp
  | some s =>
    cases hname : Assoc.get? name s.names with
    | none => simp [hname]
    | some slot => cases ho : Assoc.get? slot e.owners <;> simp [hname, ho]

/-- The environment in which a free name of the scope `i` got a new cell. -/
def declared (i : Int) (name : String) (e : Environment) : Environment :=
  (e.allocate i .null).2.setName i name e.nextSlot

theorem ends_declare {Q : Location → Environment → Prop} :
    Ends (declare name i?) e Q E ↔
      (e.scope? (i?.getD e.current) = none → E (.unknownScope (i?.getD e.current)) e) ∧
      ∀ s, e.scope? (i?.getD e.current) = some s →
        (Assoc.get? name s.names = none →
          Q ⟨i?.getD e.current, e.nextSlot, [], none⟩ (declared (i?.getD e.current) name e)) ∧
        ∀ slot, Assoc.get? name s.names = some slot →
          (Assoc.get? slot e.owners = none → E (.noOwner slot) e) ∧
          ∀ o, Assoc.get? slot e.owners = some o → Q ⟨o, slot, [], none⟩ e := by
  simp only [declare, ends_bind, ends_orCurrent, ends_lookup, Option.getD_some, ends_pure,
    ends_modifyGet]
  rfl

/-- A name of a scope of the table leads to a cell if it is bound. -/
theorem ends_lookup_linked (h : Linked e) (hs : e.scope? (i?.getD e.current) = some s) :
    Ends (lookup name i?) e
      (fun l? e' => e' = e ∧ ∀ l, l? = some l → e.Names (i?.getD e.current) name l)
      (fun _ _ => False) := by
  rw [ends_lookup]
  refine ⟨fun hnone => by simp [hs] at hnone, fun t ht => ⟨fun _ => by simp, ?_⟩⟩
  intro slot hname
  obtain ⟨j, hj⟩ := (h.fits _ t ht).named name slot (Assoc.mem_of_get? hname)
  have howner := (h.owner_iff slot j).2 hj
  refine ⟨fun hnone => by simp [howner] at hnone, fun o ho => ⟨rfl, ?_⟩⟩
  intro l hl
  obtain rfl := Option.some.inj hl
  exact ⟨t, ht, hname, ho, rfl, rfl⟩

theorem names_declared (hs : e.scope? i = some s) :
    (declared i name e).Names i name ⟨i, e.nextSlot, [], none⟩ := by
  refine ⟨{ s with
    cells := Assoc.insert e.nextSlot .null s.cells
    names := Assoc.insert name e.nextSlot s.names }, ?_, ?_, ?_, rfl, rfl⟩
  · simp [declared, setName, scope?_allocate, hs]
  · simp [Assoc.get?_insert]
  · simp [declared, setName, modifyScope, allocate, Assoc.get?_insert]

theorem steps_declared (h : Consistent e) (hs : e.scope? i = some s) (ho : s.released = false)
    (hname : Assoc.get? name s.names = none) : Steps e (declared i name e) := by
  have hscope : (e.allocate i .null).2.scope? i =
      some { s with cells := Assoc.insert e.nextSlot .null s.cells } := by
    simp [scope?_allocate, hs]
  have hheld : ∃ j, (e.allocate i .null).2.Holds j e.nextSlot :=
    ⟨i, (holds_allocate hs).2 (.inr ⟨rfl, rfl⟩)⟩
  refine ⟨(h.allocate hs ho).setName hscope ho hname hheld, ?_⟩
  have hallocate : Extends e (e.allocate i .null).2 := by
    refine ⟨Int.le_add_one (Int.le_refl _), Int.le_refl _, ?_, ?_⟩
    · intro j x hx hh
      rcases (holds_allocate hs).1 hh with hh | ⟨-, rfl⟩
      · exact hh
      · exact absurd hx (Int.lt_irrefl _)
    · intro j _ hj
      simpa [allocate, modifyScope] using hj
  exact hallocate.trans (extends_modifyScope fun _ _ => rfl)

theorem ends_declare_consistent (h : Consistent e) (hi : e.Unreleased (i?.getD e.current)) :
    Ends (declare name i?) e
      (fun l e' => Steps e e' ∧ e'.Names (i?.getD e.current) name l ∧ e'.current = e.current)
      (fun _ e' => e' = e ∧ e.scope? (i?.getD e.current) = none) := by
  rw [ends_declare]
  refine ⟨fun hnone => ⟨rfl, hnone⟩, fun s hs => ⟨fun hname => ?_, fun slot hname => ?_⟩⟩
  · exact ⟨steps_declared h hs (hi s hs) hname, names_declared hs, rfl⟩
  · obtain ⟨j, hj⟩ := (h.fits _ s hs).named name slot (Assoc.mem_of_get? hname)
    have howner := (h.owner_iff slot j).2 hj
    refine ⟨fun hnone => by simp [howner] at hnone, fun o ho => ⟨h.steps, ?_, rfl⟩⟩
    exact ⟨s, hs, hname, ho, rfl, rfl⟩

/-- The environment in which a bound name of the scope `i` was unbound. -/
def unbound (i : Int) (name : String) (slot : Int) (e : Environment) : Environment :=
  let e := e.eraseName i name
  if e.isBound slot then e
  else
    match Assoc.get? slot e.owners with
    | some o => (e.dropCell o slot).sweep
    | none => e.sweep

theorem ends_unset {Q : Unit → Environment → Prop} :
    Ends (unset name i?) e Q E ↔
      (e.scope? (i?.getD e.current) = none → E (.unknownScope (i?.getD e.current)) e) ∧
      ∀ s, e.scope? (i?.getD e.current) = some s →
        (Assoc.get? name s.names = none → Q () e) ∧
        ∀ slot, Assoc.get? name s.names = some slot →
          Q () (unbound (i?.getD e.current) name slot e) := by
  simp only [unset, ends_bind, ends_orCurrent, ends_get]
  rw [and_comm]
  refine and_congr_right' (forall_congr' fun s => imp_congr_right fun _ => ?_)
  cases Assoc.get? name s.names with
  | none => simp
  | some slot =>
    simp only [ends_modify, reduceCtorEq, false_implies, Option.some.injEq, forall_eq', true_and]
    rfl

/-- What a scope shows: its names, and whether it is released. -/
def face (s : Scope) : List (String × Int) × Bool := (s.names, s.released)

/-- What unbinding a name leaves in sight: the current scope, and the names of the open scopes but
the one that was unbound. -/
theorem face_unbound (h : Consistent e) (hs : e.scope? i = some s)
    (hname : Assoc.get? name s.names = some slot) :
    Steps e (unbound i name slot e) ∧ (unbound i name slot e).current = e.current ∧
      ∀ j, e.Unreleased j →
        ((unbound i name slot e).scope? j).map face = ((e.eraseName i name).scope? j).map face := by
  have hl : Linked (e.eraseName i name) :=
    h.toLinked.modifyScope fun t ht => keeps_eraseName h.toLinked ht
  have hext : Extends e (e.eraseName i name) := extends_modifyScope fun _ _ => rfl
  have hopen : ∀ {j}, e.Unreleased j → (e.eraseName i name).Unreleased j := by
    intro j hj t ht
    rw [eraseName, scope?_modifyScope] at ht
    split at ht
    · obtain ⟨r, hr, rfl⟩ := Option.map_eq_some_iff.1 ht
      exact hj r hr
    · exact hj t ht
  simp only [unbound]
  -- The slot has another name, or its cell goes and the released scopes are swept.
  split
  · rename_i hb
    refine ⟨⟨h.modifyScope (fun t ht => ⟨keeps_eraseName h.toLinked ht, rfl⟩) ?_, hext⟩, rfl,
      fun _ _ => rfl⟩
    intro x hx
    by_cases hslot : x = slot
    · exact hslot ▸ hb
    · exact isBound_eraseName h.toLinked hs hname hslot hx
  · rename_i hb
    obtain ⟨o, ho⟩ := (h.fits i s hs).named name slot (Assoc.mem_of_get? hname)
    have howner : Assoc.get? slot (e.eraseName i name).owners = some o := (h.owner_iff slot o).2 ho
    rw [howner]
    have hheld := (hl.owner_iff slot o).1 howner
    have hdrop := hl.dropCell hheld (by simpa using hb)
    have hdropExt := (shrinks_dropCell o slot (e.eraseName i name)).extends hl rfl rfl
    obtain ⟨-, hothers, hrest⟩ := hdrop.sweep_spec
    refine ⟨⟨hdrop.steps_sweep.consistent, (hext.trans hdropExt).trans hdrop.steps_sweep.grows⟩,
      congrArg (·.current) hrest, ?_⟩
    intro j hj
    have hface : ∀ r : Option Scope, r.map face = (r.map stripped).map face := by
      intro r
      cases r <;> rfl
    have hunrel : ((e.eraseName i name).dropCell o slot).Unreleased j := by
      intro t ht
      rw [scope?_dropCell] at ht
      split at ht
      · obtain ⟨r, hr, rfl⟩ := Option.map_eq_some_iff.1 ht
        exact hopen hj r hr
      · exact hopen hj t ht
    rw [hface, hothers j hunrel, ← hface, scope?_dropCell]
    split
    · rw [Option.map_map]
      rfl
    · rfl

theorem ends_unset_consistent (h : Consistent e) :
    Ends (unset name i?) e (fun _ e' => Steps e e' ∧ e'.current = e.current)
      (fun _ e' => e' = e ∧ e.scope? (i?.getD e.current) = none) := by
  rw [ends_unset]
  refine ⟨fun hnone => ⟨rfl, hnone⟩, fun s hs => ⟨fun _ => ⟨h.steps, rfl⟩, fun slot hname => ?_⟩⟩
  obtain ⟨hsteps, hcurrent, -⟩ := face_unbound h hs hname
  exact ⟨hsteps, hcurrent⟩

theorem steps_setName (h : Consistent e) (hs : e.scope? i = some s) (ho : s.released = false)
    (hname : Assoc.get? name s.names = none) (howner : Assoc.get? l.slot e.owners = some l.scope)
    (hpath : l.path = []) (hchar : l.char? = none) :
    Steps e (e.setName i name l.slot) ∧ (e.setName i name l.slot).Names i name l := by
  refine ⟨⟨h.setName hs ho hname ⟨l.scope, (h.owner_iff _ _).1 howner⟩,
    extends_modifyScope fun _ _ => rfl⟩, ?_⟩
  refine ⟨{ s with names := Assoc.insert name l.slot s.names }, ?_, ?_, howner, hpath, hchar⟩
  · simp [setName, hs]
  · simp [Assoc.get?_insert]

/-- Unbinding another name leaves a slot with its owner. -/
theorem owner_unbound {j slot : Int} {source : String} (h : Consistent e)
    (hs : e.scope? i = some s) (hname : Assoc.get? name s.names = some slot) (hne : slot ≠ l.slot)
    (hj : e.Unreleased j) (hsource : e.Names j source l) :
    Assoc.get? l.slot (unbound i name slot e).owners = some l.scope := by
  obtain ⟨t, ht, hget, howner, -, -⟩ := hsource
  obtain ⟨hsteps, -, hface⟩ := face_unbound h hs hname
  have hkept : ∃ r, (e.eraseName i name).scope? j = some r ∧
      Assoc.get? source r.names = some l.slot := by
    by_cases hij : i = j
    · subst j
      obtain rfl : s = t := by simpa [hs] using ht
      have hother : source ≠ name := by
        rintro rfl
        rw [hname] at hget
        exact hne (Option.some.inj hget)
      exact ⟨_, by simp [eraseName, hs]; rfl, by simp [Assoc.get?_erase_of_ne hother, hget]⟩
    · exact ⟨t, by simp [eraseName, hij, ht], hget⟩
  obtain ⟨r, hr, hr'⟩ := hkept
  -- The other name still leads to the slot, so some scope holds it, and slots do not move.
  have hmap := hface j hj
  rw [hr, Option.map_some] at hmap
  obtain ⟨u, hu, hfu⟩ := Option.map_eq_some_iff.1 hmap
  have hnames : u.names = r.names := congrArg Prod.fst hfu
  obtain ⟨k, hk⟩ := (hsteps.consistent.fits j u hu).named source l.slot
    (Assoc.mem_of_get? (hnames ▸ hr'))
  have hbefore := (h.owner_iff _ _).1 howner
  have hsame : k = l.scope :=
    (hsteps.grows.held k l.slot (h.slot_lt _ _ hbefore) hk).unique h.toLinked hbefore
  exact hsame ▸ (hsteps.consistent.owner_iff _ _).2 hk

theorem ends_bind_consistent {j : Int} {source : String} (h : Consistent e)
    (hi : e.Unreleased (i?.getD e.current)) (hj : e.Unreleased j) (hsource : e.Names j source l) :
    Ends (bind name l i?) e
      (fun _ e' => Steps e e' ∧ e'.Names (i?.getD e.current) name l ∧ e'.current = e.current)
      (fun _ e' => e' = e ∧ e.scope? (i?.getD e.current) = none) := by
  obtain ⟨-, -, -, howner, hpath, hchar⟩ := id hsource
  simp only [bind, hpath, hchar, List.isEmpty_nil, Bool.not_true, Option.isSome_none, Bool.or_self,
    Bool.false_eq_true, if_false, ends_bind, ends_orCurrent, ends_get]
  refine ⟨fun s hs => ?_, fun hnone => ⟨trivial, hnone⟩⟩
  -- Nothing is done to a name that is bound to the slot already.
  split
  · rename_i hsame
    exact ⟨h.steps, ⟨s, hs, hsame, howner, hpath, hchar⟩, rfl⟩
  · rename_i hother
    simp only [ends_bind, ends_unset, Option.getD_some, ends_get, ends_modify]
    refine ⟨fun hnone => by simp [hs] at hnone, fun t ht => ?_⟩
    obtain rfl : s = t := by simpa [hs] using ht
    refine ⟨fun hfree => ⟨fun t ht => ?_, fun hnone => by simp [hs] at hnone⟩, fun slot hname => ?_⟩
    · obtain ⟨hsteps, hnames⟩ := steps_setName h hs (hi s hs) hfree howner hpath hchar
      exact ⟨hsteps, hnames, rfl⟩
    · obtain ⟨hsteps, hcurrent, hface⟩ := face_unbound h hs hname
      have hmap := hface _ hi
      rw [eraseName, scope?_modifyScope, if_pos rfl, hs] at hmap
      obtain ⟨u, hu, hfu⟩ := Option.map_eq_some_iff.1 hmap
      have hnames : u.names = Assoc.erase name s.names := congrArg Prod.fst hfu
      have hopen : u.released = false := (congrArg Prod.snd hfu).trans (hi s hs)
      have hfree : Assoc.get? name u.names = none := by
        rw [hnames]
        exact Assoc.get?_erase_self (h.fits _ s hs).names_nodup
      have hkept := owner_unbound h hs hname (fun heq => hother (heq ▸ hname)) hj hsource
      refine ⟨fun t _ => ?_, fun hnone => by simp [hu] at hnone⟩
      obtain ⟨hset, hbound⟩ := steps_setName hsteps.consistent hu hopen hfree hkept hpath hchar
      exact ⟨hsteps.trans hset, hbound, hcurrent⟩

theorem ends_bindGlobal_consistent (h : Consistent e) :
    Ends (bindGlobal name) e (fun _ e' => Steps e e' ∧ e'.current = e.current)
      (fun _ _ => False) := by
  simp only [bindGlobal, ends_bind]
  have hglobal : e.Unreleased ((some globalIndex).getD e.current) := h.global_open.unreleased
  refine (ends_declare_consistent h hglobal).mono ?_ ?_
  · rintro l e' ⟨hsteps, hnames, hcurrent⟩
    simp only [ends_getThe]
    split
    · have hc := hsteps.consistent
      have hhere : e'.Unreleased (none.getD e'.current) := hc.current_open.unreleased
      simp only [ends_bind, ends_pure]
      refine (ends_bind_consistent hc hhere hc.global_open.unreleased hnames).mono ?_ ?_
      · rintro - e'' ⟨hsteps', -, hcurrent'⟩
        exact ⟨hsteps.trans hsteps', hcurrent'.trans hcurrent⟩
      · rintro - e'' ⟨-, hnone⟩
        exact hc.current_open.scope?_ne_none hnone
    · exact ⟨hsteps, hcurrent⟩
  · rintro - e' ⟨-, hnone⟩
    exact h.global_open.scope?_ne_none hnone

/-! ## Values -/

/-- The environment with another value in a cell. -/
def written (l : Location) (v : Value) (e : Environment) : Environment :=
  e.modifyScope l.scope fun s => { s with cells := Assoc.modify l.slot (fun _ => v) s.cells }

theorem ends_store {v : Value} {Q : Unit → Environment → Prop} :
    Ends (store l v) e Q E ↔
      (l.char?.isSome → E .characterStore e) ∧
      (l.char? = none →
        (e.scope? l.scope = none → E (.unknownScope l.scope) e) ∧
        ∀ s, e.scope? l.scope = some s →
          (Assoc.get? l.slot s.cells = none → E (.notStored l.slot l.scope) e) ∧
          ∀ old, Assoc.get? l.slot s.cells = some old →
            (old.setAt? l.path v = none → E .noContainer e) ∧
            ∀ new, old.setAt? l.path v = some new → Q () (written l new e)) := by
  cases hchar : l.char? with
  | some n => simp [store, hchar]
  | none =>
    simp only [store, hchar, Option.isSome_none, Bool.false_eq_true, if_false, ends_bind, get,
      ends_getThe, false_implies, true_and, forall_const]
    cases e.scope? l.scope with
    | none => simp
    | some s =>
      cases hcell : Assoc.get? l.slot s.cells with
      | none => simp [hcell]
      | some old => cases hnew : old.setAt? l.path v <;> simp [hcell, hnew, written]

theorem steps_written (h : Consistent e) (v : Value) : Steps e (written l v e) := by
  refine ⟨h.modifyContents fun s _ => ⟨_, s.heap, rfl, ?_⟩, extends_modifyScope fun _ _ => ?_⟩
  · exact Assoc.keys_modify ..
  · exact Assoc.keys_modify ..

theorem ends_store_consistent (h : Consistent e) (v : Value) :
    Ends (store l v) e (fun _ e' => Steps e e') (fun _ e' => e' = e) := by
  rw [ends_store]
  exact ⟨fun _ => rfl, fun _ => ⟨fun _ => rfl, fun _ _ => ⟨fun _ => rfl, fun _ _ =>
    ⟨fun _ => rfl, fun new _ => steps_written h new⟩⟩⟩⟩

theorem ends_newObject_consistent {className : String} (h : Consistent e) :
    Ends (newObject className i?) e (fun _ e' => Steps e e') (fun _ e' => Steps e e') := by
  have hsteps : Steps e { e with nextHandle := e.nextHandle + 1 } := by
    refine ⟨⟨⟨h.scopes_nodup, h.owners_nodup, ?_, h.owner_iff, h.slot_lt, h.global_open,
      h.current_open, h.entered_open⟩, h.kept⟩,
      Int.le_refl _, Int.le_refl _, fun _ _ _ hh => hh, fun _ _ hj => hj⟩
    intro j t ht
    exact (h.fits j t ht).mono (Int.le_refl _) (fun _ _ _ k hk => ⟨k, hk⟩) rfl
  simp only [newObject, ends_bind, ends_orCurrent, ends_modifyGet, ends_get, ends_modify, ends_pure]
  refine ⟨fun s hs => hsteps.trans ⟨hsteps.consistent.modifyContents fun s _ => ?_,
    extends_modifyScope fun _ _ => rfl⟩, fun _ => hsteps⟩
  exact ⟨s.cells, _, rfl, rfl⟩

/-- The variables of a scope of the table can be listed. -/
theorem ends_bindings_linked (h : Linked e) (hs : e.scope? (i?.getD e.current) = some s) :
    Ends (bindings i?) e (fun _ e' => e' = e) (fun _ _ => False) := by
  have hvalues : ∀ names : List (String × Int), (∀ p ∈ names, ∃ j, e.Holds j p.2) →
      Ends (valuesOf names) e (fun _ e' => e' = e) (fun _ _ => False) := by
    intro names
    induction names with
    | nil => simp [valuesOf]
    | cons p rest ih =>
      intro hp
      obtain ⟨j, hj⟩ := hp p List.mem_cons_self
      have howner := (h.owner_iff p.2 j).2 hj
      simp only [valuesOf, owner, ends_bind, ends_getThe, howner, ends_pure]
      refine (ih fun q hq => hp q (List.mem_cons_of_mem p hq)).mono ?_ fun _ _ hf => hf
      rintro vs - rfl
      split <;> simp
  simp only [bindings, ends_bind, ends_orCurrent, ends_get]
  refine ⟨fun t ht => hvalues t.names ?_, fun hnone => by simp [hs] at hnone⟩
  rintro ⟨name, slot⟩ hp
  exact (h.fits _ t ht).named name slot hp

end Scoped

end PhpInterpreter
