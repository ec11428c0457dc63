import PhpInterpreter.Environment
import PhpInterpreter.Proofs.Assoc

/-!
What ties the parts of an environment together: the table of scopes, the names and cells of each
scope, the owners of slots and the lists of enclosed scopes. `Linked` holds between any two changes;
`Consistent` says also that no released scope keeps a cell without a name. Changing one scope and
dropping cells and scopes keep the first.
-/

namespace PhpInterpreter.Environment

variable {e e' : Environment} {i j slot : Int} {s t : Scope}

/-- The scope `i` is in the table and has the cell of `slot`. -/
def Holds (e : Environment) (i slot : Int) : Prop :=
  ∃ s, e.scope? i = some s ∧ slot ∈ Assoc.keys s.cells

/-- The scope `i` is in the table and not released. -/
def IsOpen (e : Environment) (i : Int) : Prop := ∃ s, e.scope? i = some s ∧ s.released = false

/-- The scopes of the table created inside `i`, with their kinds, in creation order. -/
def children (e : Environment) (i : Int) : List (ScopeKind × Int) :=
  e.scopes.filterMap fun p => if p.2.outer? = some i then some (p.2.kind, p.1) else none

/-- The scope `s` fits into the environment at the index `i`: its names lead to cells, released it
has none, and it lists the scopes created inside it. -/
structure Fits (e : Environment) (i : Int) (s : Scope) : Prop where
  names_nodup : (Assoc.keys s.names).Nodup
  cells_nodup : (Assoc.keys s.cells).Nodup
  lt_next : i < e.nextScope
  outer_lt : ∀ o, s.outer? = some o → o < i
  named : ∀ name slot, (name, slot) ∈ s.names → ∃ j, e.Holds j slot
  bare : s.released = true → s.names = []
  enclosed : s.enclosed = e.children i

structure Linked (e : Environment) : Prop where
  scopes_nodup : (Assoc.keys e.scopes).Nodup
  owners_nodup : (Assoc.keys e.owners).Nodup
  fits : ∀ i s, e.scope? i = some s → e.Fits i s
  owner_iff : ∀ slot i, Assoc.get? slot e.owners = some i ↔ e.Holds i slot
  slot_lt : ∀ slot i, e.Holds i slot → slot < e.nextSlot
  global_open : e.IsOpen globalIndex
  current_open : e.IsOpen e.current
  entered_open : ∀ i ∈ e.entered, e.IsOpen i

/-- If the scope `i` is released, it has cells, and each of them has a name somewhere. -/
def Kept (e : Environment) (i : Int) : Prop :=
  ∀ s, e.scope? i = some s → s.released = true →
    s.cells ≠ [] ∧ ∀ slot ∈ Assoc.keys s.cells, e.isBound slot = true

structure Consistent (e : Environment) : Prop extends Linked e where
  kept : ∀ i, e.Kept i

@[simp] theorem scope?_modifyScope (i j : Int) (f : Scope → Scope) (e : Environment) :
    (e.modifyScope i f).scope? j = if i = j then (e.scope? j).map f else e.scope? j :=
  Assoc.get?_modify i j f e.scopes

theorem mem_scopes_iff (h : (Assoc.keys e.scopes).Nodup) :
    (i, s) ∈ e.scopes ↔ e.scope? i = some s :=
  ⟨Assoc.get?_of_mem h, Assoc.mem_of_get?⟩

theorem binds_iff : s.binds slot = true ↔ ∃ name, (name, slot) ∈ s.names := by
  simp [Scope.binds]

theorem isBound_iff (h : (Assoc.keys e.scopes).Nodup) :
    e.isBound slot = true ↔
      ∃ i s name, e.scope? i = some s ∧ (name, slot) ∈ s.names := by
  simp only [isBound, List.any_eq_true, binds_iff]
  constructor
  · rintro ⟨⟨i, s⟩, hi, name, hname⟩
    exact ⟨i, s, name, (mem_scopes_iff h).1 hi, hname⟩
  · rintro ⟨i, s, name, hi, hname⟩
    exact ⟨(i, s), (mem_scopes_iff h).2 hi, name, hname⟩

theorem Holds.unique (h : Linked e) (hi : e.Holds i slot) (hj : e.Holds j slot) : i = j := by
  have := ((h.owner_iff slot i).2 hi).symm.trans ((h.owner_iff slot j).2 hj)
  simpa using this

theorem Fits.mono (h : e.Fits i s) (hn : e.nextScope ≤ e'.nextScope)
    (hh : ∀ name slot, (name, slot) ∈ s.names → ∀ j, e.Holds j slot → ∃ j, e'.Holds j slot)
    (hc : e'.children i = e.children i) : e'.Fits i s where
  names_nodup := h.names_nodup
  cells_nodup := h.cells_nodup
  lt_next := Int.lt_of_lt_of_le h.lt_next hn
  outer_lt := h.outer_lt
  named := by
    intro name slot hname
    obtain ⟨j, hj⟩ := h.named name slot hname
    exact hh name slot hname j hj
  bare := h.bare
  enclosed := h.enclosed.trans hc.symm

theorem children_modifyScope {f : Scope → Scope}
    (hf : ∀ s, e.scope? j = some s → (f s).outer? = s.outer? ∧ (f s).kind = s.kind) :
    (e.modifyScope j f).children i = e.children i := by
  have hmap := Assoc.map_modify j (f := f)
    (g := fun p : Int × Scope => if p.2.outer? = some i then some (p.2.kind, p.1) else none)
    e.scopes fun s hs => by simp only [(hf s hs).1, (hf s hs).2]
  simpa [children, modifyScope, List.filterMap_map] using congrArg (List.filterMap id) hmap

theorem isBound_modifyScope {f : Scope → Scope}
    (hf : ∀ s, e.scope? i = some s → (f s).names = s.names) :
    (e.modifyScope i f).isBound slot = e.isBound slot := by
  have hmap := Assoc.map_modify i (f := f) (g := fun p : Int × Scope => p.2.binds slot)
    e.scopes fun s hs => by simp only [Scope.binds, hf s hs]
  simpa [isBound, modifyScope] using congrArg (List.any · id) hmap

theorem holds_modifyScope {f : Scope → Scope}
    (hf : ∀ s, e.scope? i = some s → Assoc.keys (f s).cells = Assoc.keys s.cells) :
    (e.modifyScope i f).Holds j slot ↔ e.Holds j slot := by
  unfold Holds
  rw [scope?_modifyScope]
  split
  · subst j
    cases hs : e.scope? i with
    | none => simp
    | some s => simp [hf s hs]
  · rfl

theorem IsOpen.modifyScope {f : Scope → Scope} (h : e.IsOpen j)
    (hf : i = j → ∀ s, e.scope? i = some s → s.released = false → (f s).released = false) :
    (e.modifyScope i f).IsOpen j := by
  obtain ⟨s, hs, hr⟩ := h
  by_cases hij : i = j
  · subst j
    exact ⟨f s, by simp [hs], hf rfl s hs hr⟩
  · exact ⟨s, by simp [hij, hs], hr⟩

/-! ## Changing one scope -/

/-- A change of the scope `i` that no other part of the environment depends on. -/
structure Keeps (e : Environment) (i : Int) (s t : Scope) : Prop where
  kind : t.kind = s.kind
  outer : t.outer? = s.outer?
  enclosed : t.enclosed = s.enclosed
  keys : Assoc.keys t.cells = Assoc.keys s.cells
  names_nodup : (Assoc.keys t.names).Nodup
  named : ∀ name slot, (name, slot) ∈ t.names → ∃ j, e.Holds j slot
  bare : t.released = true → t.names = []
  released : s.released = false → t.released = true →
    i ≠ globalIndex ∧ i ≠ e.current ∧ i ∉ e.entered

theorem Linked.modifyScope {f : Scope → Scope} (h : Linked e)
    (hf : ∀ s, e.scope? i = some s → e.Keeps i s (f s)) : Linked (e.modifyScope i f) := by
  have hholds : ∀ {j slot}, (e.modifyScope i f).Holds j slot ↔ e.Holds j slot :=
    holds_modifyScope fun s hs => (hf s hs).keys
  have hchildren : ∀ j, (e.modifyScope i f).children j = e.children j := fun j =>
    children_modifyScope fun s hs => ⟨(hf s hs).outer, (hf s hs).kind⟩
  have hopen : ∀ {j}, e.IsOpen j → j = globalIndex ∨ j = e.current ∨ j ∈ e.entered →
      (e.modifyScope i f).IsOpen j := by
    intro j hj hact
    refine hj.modifyScope fun hij s hs hr => ?_
    by_contra hrel
    have := (hf s hs).released hr (by simpa using hrel)
    grind
  constructor
  · simpa [Environment.modifyScope] using h.scopes_nodup
  · exact h.owners_nodup
  · intro j t ht
    rw [scope?_modifyScope] at ht
    split at ht
    · subst j
      obtain ⟨s, hs, rfl⟩ := Option.map_eq_some_iff.1 ht
      have hk := hf s hs
      have hfit := h.fits i s hs
      exact ⟨hk.names_nodup, hk.keys ▸ hfit.cells_nodup, hfit.lt_next, hk.outer ▸ hfit.outer_lt,
        fun name slot hname => by simpa only [hholds] using hk.named name slot hname, hk.bare,
        by rw [hk.enclosed, hchildren, hfit.enclosed]⟩
    · exact (h.fits j t ht).mono (Int.le_refl _) (fun _ _ _ k hk => ⟨k, hholds.2 hk⟩) (hchildren j)
  · intro slot j
    rw [hholds]
    exact h.owner_iff slot j
  · intro slot j hj
    exact h.slot_lt slot j (hholds.1 hj)
  · exact hopen h.global_open (.inl rfl)
  · exact hopen h.current_open (.inr (.inl rfl))
  · exact fun j hj => hopen (h.entered_open j hj) (.inr (.inr hj))

/-! ## Dropping cells -/

@[simp] theorem scope?_dropCell (i j slot : Int) (e : Environment) :
    (e.dropCell i slot).scope? j =
      if i = j then (e.scope? j).map fun s => { s with cells := Assoc.erase slot s.cells }
      else e.scope? j :=
  scope?_modifyScope ..

@[simp] theorem isBound_dropCell (i slot x : Int) (e : Environment) :
    (e.dropCell i slot).isBound x = e.isBound x :=
  isBound_modifyScope fun _ _ => rfl

theorem holds_dropCell {x : Int} (h : Linked e) (ho : e.Holds i slot) :
    (e.dropCell i slot).Holds j x ↔ e.Holds j x ∧ x ≠ slot := by
  unfold Holds
  rw [scope?_dropCell]
  split
  · subst j
    cases hs : e.scope? i with
    | none => simp
    | some s =>
      simp only [Option.map_some, Option.some.injEq, exists_eq_left', Assoc.keys_erase]
      rw [(h.fits i s hs).cells_nodup.mem_erase_iff, and_comm]
  · rename_i hij
    -- The slot is held by one scope only, so another one does not hold it.
    refine ⟨fun hx => ⟨hx, ?_⟩, And.left⟩
    rintro rfl
    exact hij (ho.unique h hx)

theorem Linked.dropCell (h : Linked e) (ho : e.Holds i slot) (hb : e.isBound slot = false) :
    Linked (e.dropCell i slot) := by
  have hchildren : ∀ j, (e.dropCell i slot).children j = e.children j :=
    fun j => children_modifyScope fun _ _ => ⟨rfl, rfl⟩
  have hopen : ∀ {j}, e.IsOpen j → (e.dropCell i slot).IsOpen j :=
    fun hj => hj.modifyScope fun _ _ _ hr => hr
  -- No name leads to the dropped cell.
  have hnamed : ∀ {j s name x}, e.scope? j = some s → (name, x) ∈ s.names → ∀ k, e.Holds k x →
      ∃ k, (e.dropCell i slot).Holds k x := by
    intro j s name x hs hname k hk
    refine ⟨k, (holds_dropCell h ho).2 ⟨hk, ?_⟩⟩
    rintro rfl
    have := (isBound_iff h.scopes_nodup).2 ⟨j, s, name, hs, hname⟩
    simp [hb] at this
  constructor
  · simpa [Environment.dropCell, Environment.modifyScope] using h.scopes_nodup
  · exact Assoc.nodup_keys_erase h.owners_nodup
  · intro j t ht
    rw [scope?_dropCell] at ht
    split at ht
    · subst j
      obtain ⟨s, hs, rfl⟩ := Option.map_eq_some_iff.1 ht
      have hfit : (e.dropCell i slot).Fits i s :=
        (h.fits i s hs).mono (Int.le_refl _) (fun _ _ hname => hnamed hs hname) (hchildren i)
      exact { hfit with cells_nodup := Assoc.nodup_keys_erase hfit.cells_nodup }
    · exact (h.fits j t ht).mono (Int.le_refl _) (fun _ _ hname => hnamed ht hname) (hchildren j)
  · intro x j
    rw [holds_dropCell h ho, ← h.owner_iff]
    change Assoc.get? x (Assoc.erase slot e.owners) = some j ↔ _
    by_cases hx : x = slot
    · subst x
      simp [Assoc.get?_erase_self h.owners_nodup]
    · simp [Assoc.get?_erase_of_ne hx, hx]
  · intro x j hx
    exact h.slot_lt x j ((holds_dropCell h ho).1 hx).1
  · exact hopen h.global_open
  · exact hopen h.current_open
  · exact fun j hj => hopen (h.entered_open j hj)

/-! ## Dropping scopes -/

/-- Dropping a scope changes the table only. -/
theorem dropScope_eq : e.dropScope i s = { e with scopes := (e.dropScope i s).scopes } := by
  unfold dropScope
  cases s.outer? <;> rfl

theorem scope?_dropScope (h : (Assoc.keys e.scopes).Nodup) :
    (e.dropScope i s).scope? j = if j = i then none else (e.scope? j).map fun o =>
      if s.outer? = some j then { o with enclosed := o.enclosed.erase (s.kind, i) } else o := by
  have herase : ({ e with scopes := Assoc.erase i e.scopes } : Environment).scope? j =
      if j = i then none else e.scope? j := by
    by_cases hj : j = i
    · subst j
      simpa [scope?] using Assoc.get?_erase_self h
    · simpa [scope?, hj] using Assoc.get?_erase_of_ne hj e.scopes
  unfold dropScope
  cases ho : s.outer? with
  | none => simp [herase]
  | some o =>
    simp only [scope?_modifyScope, herase]
    by_cases hj : j = i
    · simp [hj]
    · by_cases hoj : o = j <;> simp [hj, hoj]

/-- The scopes that stay differ in their lists of enclosed scopes at most. -/
theorem exists_of_scope?_dropScope (h : (Assoc.keys e.scopes).Nodup)
    (ht : (e.dropScope i s).scope? j = some t) :
    j ≠ i ∧ ∃ o enclosed, e.scope? j = some o ∧ t = { o with enclosed } := by
  rw [scope?_dropScope h] at ht
  split at ht
  · cases ht
  · rename_i hj
    obtain ⟨o, ho, rfl⟩ := Option.map_eq_some_iff.1 ht
    refine ⟨hj, o, ?_⟩
    split <;> exact ⟨_, ho, rfl⟩

theorem exists_scope?_dropScope {o : Scope} (h : (Assoc.keys e.scopes).Nodup) (hj : j ≠ i)
    (ho : e.scope? j = some o) :
    ∃ enclosed, (e.dropScope i s).scope? j = some { o with enclosed } := by
  rw [scope?_dropScope h, if_neg hj, ho, Option.map_some]
  split <;> exact ⟨_, rfl⟩

theorem filterMap_erase_child (l : List (Int × Scope)) (hs : Assoc.get? i l = some s) :
    (Assoc.erase i l).filterMap
        (fun p => if p.2.outer? = some j then some (p.2.kind, p.1) else none) =
      let children := l.filterMap
        (fun p => if p.2.outer? = some j then some (p.2.kind, p.1) else none)
      if s.outer? = some j then children.erase (s.kind, i) else children := by
  induction l with
  | nil => simp at hs
  | cons p rest ih =>
    obtain ⟨k, t⟩ := p
    by_cases hk : k = i
    · subst k
      obtain rfl : t = s := by simpa using hs
      by_cases ho : t.outer? = some j <;> simp [Assoc.erase, ho]
    -- A scope with another number is another pair, whatever its kind.
    · have hrest := ih (by simpa [hk] using hs)
      by_cases ho : t.outer? = some j <;> by_cases hs' : s.outer? = some j <;>
        simp_all [Assoc.erase]

theorem children_dropScope (hs : e.scope? i = some s) :
    (e.dropScope i s).children j =
      if s.outer? = some j then (e.children j).erase (s.kind, i) else e.children j := by
  have herase : ({ e with scopes := Assoc.erase i e.scopes } : Environment).children j =
      if s.outer? = some j then (e.children j).erase (s.kind, i) else e.children j :=
    filterMap_erase_child e.scopes hs
  rw [← herase]
  unfold dropScope
  cases s.outer? with
  | none => rfl
  | some o => exact children_modifyScope fun _ _ => ⟨rfl, rfl⟩

theorem holds_dropScope {x : Int} (h : (Assoc.keys e.scopes).Nodup) (hs : e.scope? i = some s)
    (hc : s.cells = []) : (e.dropScope i s).Holds j x ↔ e.Holds j x := by
  unfold Holds
  rw [scope?_dropScope h]
  split
  · subst j
    simp [hs, hc, Assoc.keys]
  · cases e.scope? j with
    | none => simp
    | some o => by_cases ho : s.outer? = some j <;> simp [ho]

theorem keys_scopes_dropScope :
    Assoc.keys (e.dropScope i s).scopes = (Assoc.keys e.scopes).erase i := by
  unfold dropScope
  cases s.outer? <;> simp [modifyScope, Assoc.keys_erase]

theorem IsOpen.ne_of_released (hj : e.IsOpen j) (hs : e.scope? i = some s)
    (hr : s.released = true) : j ≠ i := by
  rintro rfl
  obtain ⟨o, ho, hro⟩ := hj
  simp_all

theorem IsOpen.dropScope (h : (Assoc.keys e.scopes).Nodup) (hij : j ≠ i) (hj : e.IsOpen j) :
    (e.dropScope i s).IsOpen j := by
  obtain ⟨o, ho, hro⟩ := hj
  obtain ⟨enclosed, ht⟩ := exists_scope?_dropScope h hij ho
  exact ⟨_, ht, hro⟩

theorem isBound_dropScope {x : Int} (h : Linked e) (hs : e.scope? i = some s)
    (hr : s.released = true) : (e.dropScope i s).isBound x = e.isBound x := by
  have hnodup : (Assoc.keys (e.dropScope i s).scopes).Nodup := by
    rw [keys_scopes_dropScope]
    exact h.scopes_nodup.erase i
  rw [Bool.eq_iff_iff, isBound_iff hnodup, isBound_iff h.scopes_nodup]
  have hbare := (h.fits i s hs).bare hr
  constructor
  · rintro ⟨j, t, name, ht, hname⟩
    obtain ⟨-, o, _, ho, rfl⟩ := exists_of_scope?_dropScope h.scopes_nodup ht
    exact ⟨j, o, name, ho, hname⟩
  · rintro ⟨j, o, name, ho, hname⟩
    have hij : j ≠ i := by
      rintro rfl
      simp_all
    obtain ⟨_, ht⟩ := exists_scope?_dropScope h.scopes_nodup hij ho
    exact ⟨j, _, name, ht, hname⟩

theorem Linked.dropScope (h : Linked e) (hs : e.scope? i = some s) (hc : s.cells = [])
    (hr : s.released = true) : Linked (e.dropScope i s) := by
  have hopen : ∀ {j}, e.IsOpen j → (e.dropScope i s).IsOpen j := fun hj =>
    hj.dropScope h.scopes_nodup (hj.ne_of_released hs hr)
  have howners : (e.dropScope i s).owners = e.owners := congrArg (·.owners) dropScope_eq
  have hslot : (e.dropScope i s).nextSlot = e.nextSlot := congrArg (·.nextSlot) dropScope_eq
  have hscope : (e.dropScope i s).nextScope = e.nextScope := congrArg (·.nextScope) dropScope_eq
  have hcurrent : (e.dropScope i s).current = e.current := congrArg (·.current) dropScope_eq
  have hentered : (e.dropScope i s).entered = e.entered := congrArg (·.entered) dropScope_eq
  constructor
  · rw [keys_scopes_dropScope]
    exact h.scopes_nodup.erase i
  · rw [howners]
    exact h.owners_nodup
  · intro j t ht
    rw [scope?_dropScope h.scopes_nodup] at ht
    split at ht
    · simp at ht
    · obtain ⟨o, ho, rfl⟩ := Option.map_eq_some_iff.1 ht
      have hfit := h.fits j o ho
      have hnamed : ∀ name slot, (name, slot) ∈ o.names → ∃ k, (e.dropScope i s).Holds k slot := by
        intro name slot hname
        simpa only [holds_dropScope h.scopes_nodup hs hc] using hfit.named name slot hname
      split
      · rename_i hout
        exact ⟨hfit.names_nodup, hfit.cells_nodup, hscope ▸ hfit.lt_next, hfit.outer_lt, hnamed,
          hfit.bare, by simp [children_dropScope hs, hout, hfit.enclosed]⟩
      · rename_i hout
        exact ⟨hfit.names_nodup, hfit.cells_nodup, hscope ▸ hfit.lt_next, hfit.outer_lt, hnamed,
          hfit.bare, by simp [children_dropScope hs, hout, hfit.enclosed]⟩
  · intro slot j
    rw [howners, holds_dropScope h.scopes_nodup hs hc]
    exact h.owner_iff slot j
  · intro slot j hj
    rw [hslot]
    exact h.slot_lt slot j ((holds_dropScope h.scopes_nodup hs hc).1 hj)
  · exact hopen h.global_open
  · rw [hcurrent]
    exact hopen h.current_open
  · rw [hentered]
    exact fun j hj => hopen (h.entered_open j hj)

end PhpInterpreter.Environment
