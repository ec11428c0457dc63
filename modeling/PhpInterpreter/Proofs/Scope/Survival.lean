import PhpInterpreter.Proofs.Scope.Binding
import PhpInterpreter.Proofs.Scope.History

/-!
What no operation takes away. Any operations may have led to an environment, also some that put
names into released scopes, as long as names were bound to slots with an owner only. Then the
variables of unreleased scopes keep their slots and values in every operation, but for the
variables it is about: a sweep drops no cell that has a name.
-/

namespace PhpInterpreter

namespace Environment

variable {e e' : Environment} {i j slot x : Int} {s t : Scope} {name n : String} {v : Value}
  {l : Location} {except : Int → String → Prop}

/-- The part of `Linked` that outlives any operations: slots are where their owners are, and all
numbers in use, also those of names that lead nowhere, are below the next ones. -/
structure Indexed (e : Environment) : Prop where
  scopes_nodup : (Assoc.keys e.scopes).Nodup
  owners_nodup : (Assoc.keys e.owners).Nodup
  names_nodup : ∀ i s, e.scope? i = some s → (Assoc.keys s.names).Nodup
  cells_nodup : ∀ i s, e.scope? i = some s → (Assoc.keys s.cells).Nodup
  owner_iff : ∀ slot i, Assoc.get? slot e.owners = some i ↔ e.Holds i slot
  scope_lt : ∀ i s, e.scope? i = some s → i < e.nextScope
  slot_lt : ∀ slot i, e.Holds i slot → slot < e.nextSlot
  named_lt : ∀ i s, e.scope? i = some s → ∀ p ∈ s.names, p.2 < e.nextSlot

/-- The name of the scope `i` still stands for the slot, with the owner and the value it had. -/
structure Stands (e e' : Environment) (i : Int) (name : String) (slot : Int) : Prop where
  isOpen : e'.IsOpen i
  bound : e'.slot? i name = some slot
  owner : Assoc.get? slot e'.owners = Assoc.get? slot e.owners
  value : ∀ j, e'.value? j slot = e.value? j slot

/-- The names of unreleased scopes stand, with some exceptions. -/
structure Spares (except : Int → String → Prop) (e e' : Environment) : Prop where
  next : e.nextSlot ≤ e'.nextSlot
  stands : ∀ i name slot, e.IsOpen i → e.slot? i name = some slot → ¬ except i name →
    Stands e e' i name slot

theorem Spares.refl (e : Environment) : Spares except e e :=
  ⟨Int.le_refl _, fun _ _ _ hi hslot _ => ⟨hi, hslot, rfl, fun _ => rfl⟩⟩

theorem Spares.trans {e₁ e₂ e₃ : Environment} (h : Spares except e₁ e₂)
    (h' : Spares except e₂ e₃) : Spares except e₁ e₃ where
  next := Int.le_trans h.next h'.next
  stands i name slot hi hslot hout := by
    have h₁ := h.stands i name slot hi hslot hout
    have h₂ := h'.stands i name slot h₁.isOpen h₁.bound hout
    exact ⟨h₂.isOpen, h₂.bound, h₂.owner.trans h₁.owner, fun j => (h₂.value j).trans (h₁.value j)⟩

theorem Spares.weaken {except' : Int → String → Prop} (h : Spares except e e')
    (hsub : ∀ i name, except i name → except' i name) : Spares except' e e' :=
  ⟨h.next, fun i name slot hi hslot hout => h.stands i name slot hi hslot (mt (hsub i name) hout)⟩

theorem isBound_of_slot? (h : e.slot? i name = some slot) : e.isBound slot = true := by
  obtain ⟨s, hs, hname⟩ := Option.bind_eq_some_iff.1 h
  exact List.any_eq_true.2
    ⟨(i, s), Assoc.mem_of_get? hs, binds_iff.2 ⟨name, Assoc.mem_of_get? hname⟩⟩

theorem Indexed.slot?_lt (h : Indexed e) (hslot : e.slot? i name = some slot) :
    slot < e.nextSlot := by
  obtain ⟨s, hs, hname⟩ := Option.bind_eq_some_iff.1 hslot
  exact h.named_lt i s hs _ (Assoc.mem_of_get? hname)

theorem Indexed.scope?_nextScope (h : Indexed e) : e.scope? e.nextScope = none := by
  cases hs : e.scope? e.nextScope with
  | none => rfl
  | some s => exact absurd (h.scope_lt _ s hs) (Int.lt_irrefl _)

theorem Indexed.holds_unique (h : Indexed e) (hi : e.Holds i slot) (hj : e.Holds j slot) :
    i = j := by
  have := ((h.owner_iff slot i).2 hi).symm.trans ((h.owner_iff slot j).2 hj)
  simpa using this

/-! ## Changing one scope -/

/-- The cells of a scope stay its cells, and its names get slots in use only. -/
theorem Indexed.modifyScope {f : Scope → Scope} (h : Indexed e)
    (hkeys : ∀ s, e.scope? i = some s → Assoc.keys (f s).cells = Assoc.keys s.cells)
    (hnodup : ∀ s, e.scope? i = some s → (Assoc.keys (f s).names).Nodup)
    (hnames : ∀ s, e.scope? i = some s → ∀ p ∈ (f s).names, p.2 < e.nextSlot) :
    Indexed (e.modifyScope i f) := by
  have hscope : ∀ {j t}, (e.modifyScope i f).scope? j = some t →
      e.scope? j = some t ∨ ∃ s, i = j ∧ e.scope? i = some s ∧ t = f s := by
    intro j t ht
    rw [scope?_modifyScope] at ht
    split at ht
    · obtain ⟨s, hs, rfl⟩ := Option.map_eq_some_iff.1 ht
      rename_i hij
      exact .inr ⟨s, hij, hij ▸ hs, rfl⟩
    · exact .inl ht
  constructor
  · simpa [Environment.modifyScope] using h.scopes_nodup
  · exact h.owners_nodup
  · intro j t ht
    rcases hscope ht with ht | ⟨s, -, hs, rfl⟩
    · exact h.names_nodup j t ht
    · exact hnodup s hs
  · intro j t ht
    rcases hscope ht with ht | ⟨s, -, hs, rfl⟩
    · exact h.cells_nodup j t ht
    · rw [hkeys s hs]
      exact h.cells_nodup i s hs
  · intro slot j
    rw [holds_modifyScope hkeys]
    exact h.owner_iff slot j
  · intro j t ht
    rcases hscope ht with ht | ⟨s, rfl, hs, rfl⟩
    · exact h.scope_lt j t ht
    · exact h.scope_lt i s hs
  · intro slot j hj
    exact h.slot_lt slot j ((holds_modifyScope hkeys).1 hj)
  · intro j t ht
    rcases hscope ht with ht | ⟨s, -, hs, rfl⟩
    · exact h.named_lt j t ht
    · exact hnames s hs

theorem spares_modifyScope {f : Scope → Scope}
    (hnames : ∀ s name, e.scope? i = some s → s.released = false → ¬ except i name →
      (f s).released = false ∧ Assoc.get? name (f s).names = Assoc.get? name s.names)
    (hcells : ∀ s, e.scope? i = some s → ∀ j name slot, e.slot? j name = some slot →
      ¬ except j name → Assoc.get? slot (f s).cells = Assoc.get? slot s.cells) :
    Spares except e (e.modifyScope i f) := by
  refine ⟨Int.le_refl _, fun j name slot hj hslot hout => ⟨?_, ?_, rfl, fun k => ?_⟩⟩
  · refine hj.modifyScope fun hij s hs hr => ?_
    subst j
    exact (hnames s name hs hr hout).1
  · rw [slot?_modifyScope]
    split
    · subst j
      obtain ⟨s, hs, hr⟩ := hj
      rw [hs, Option.bind_some, (hnames s name hs hr hout).2]
      simpa [slot?, hs] using hslot
    · exact hslot
  · rw [value?_modifyScope]
    split
    · subst k
      cases hs : e.scope? i with
      | none => simp [value?, hs]
      | some s => simpa [value?, hs] using hcells s hs j name slot hslot hout
    · rfl

theorem Indexed.eraseName (h : Indexed e) : Indexed (e.eraseName i name) :=
  h.modifyScope (fun _ _ => rfl) (fun s hs => Assoc.nodup_keys_erase (h.names_nodup i s hs))
    fun s hs p hp => h.named_lt i s hs p (Assoc.mem_of_mem_erase hp)

theorem spares_eraseName : Spares (fun j n => j = i ∧ n = name) e (e.eraseName i name) := by
  refine spares_modifyScope (fun s n _ hr hout => ⟨hr, ?_⟩) fun _ _ _ _ _ _ _ => rfl
  exact Assoc.get?_erase_of_ne (fun heq => hout ⟨rfl, heq⟩) s.names

theorem Indexed.setName (h : Indexed e) (hslot : slot < e.nextSlot) :
    Indexed (e.setName i name slot) := by
  refine h.modifyScope (fun _ _ => rfl)
    (fun s hs => Assoc.nodup_keys_insert (h.names_nodup i s hs)) fun s hs p hp => ?_
  rcases Assoc.mem_insert hp with rfl | hp
  · exact hslot
  · exact h.named_lt i s hs p hp

theorem spares_setName : Spares (fun j n => j = i ∧ n = name) e (e.setName i name slot) := by
  refine spares_modifyScope (fun s n _ hr hout => ⟨hr, ?_⟩) fun _ _ _ _ _ _ _ => rfl
  rw [Assoc.get?_insert, if_neg fun heq => hout ⟨rfl, heq.symm⟩]

/-! ## Cells -/

theorem holds_dropCell_of_ne (hx : x ≠ slot) (h : e.Holds i x) : (e.dropCell i slot).Holds i x := by
  obtain ⟨s, hs, hmem⟩ := h
  refine ⟨{ s with cells := Assoc.erase slot s.cells }, by simp [hs], ?_⟩
  rw [Assoc.keys_erase]
  exact (List.mem_erase_of_ne hx).2 hmem

theorem Indexed.holds_dropCell (h : Indexed e) (ho : e.Holds i slot) :
    (e.dropCell i slot).Holds j x ↔ e.Holds j x ∧ x ≠ slot := by
  by_cases hij : i = j
  · subst j
    obtain ⟨s, hs, -⟩ := ho
    simp only [Holds, scope?_dropCell, if_pos, hs, Option.map_some, Option.some.injEq,
      exists_eq_left', Assoc.keys_erase]
    rw [(h.cells_nodup i s hs).mem_erase_iff, and_comm]
  · have hsame : (e.dropCell i slot).Holds j x ↔ e.Holds j x := by
      simp [Holds, scope?_dropCell, hij]
    rw [hsame]
    refine ⟨fun hx => ⟨hx, ?_⟩, And.left⟩
    rintro rfl
    exact hij (h.holds_unique ho hx)

theorem Indexed.dropCell (h : Indexed e) (ho : e.Holds i slot) : Indexed (e.dropCell i slot) := by
  have hscope : ∀ {j t}, (e.dropCell i slot).scope? j = some t →
      ∃ s, e.scope? j = some s ∧ t.names = s.names ∧
        (t.cells = s.cells ∨ t.cells = Assoc.erase slot s.cells) := by
    intro j t ht
    rw [scope?_dropCell] at ht
    split at ht
    · obtain ⟨s, hs, rfl⟩ := Option.map_eq_some_iff.1 ht
      exact ⟨s, hs, rfl, .inr rfl⟩
    · exact ⟨t, ht, rfl, .inl rfl⟩
  constructor
  · simpa [Environment.dropCell, Environment.modifyScope] using h.scopes_nodup
  · exact Assoc.nodup_keys_erase h.owners_nodup
  · intro j t ht
    obtain ⟨s, hs, hnames, -⟩ := hscope ht
    exact hnames ▸ h.names_nodup j s hs
  · intro j t ht
    obtain ⟨s, hs, -, hcells | hcells⟩ := hscope ht
    · exact hcells ▸ h.cells_nodup j s hs
    · exact hcells ▸ Assoc.nodup_keys_erase (h.cells_nodup j s hs)
  · intro x j
    rw [h.holds_dropCell ho, ← h.owner_iff]
    change Assoc.get? x (Assoc.erase slot e.owners) = some j ↔ _
    by_cases hx : x = slot
    · subst x
      simp [Assoc.get?_erase_self h.owners_nodup]
    · simp [Assoc.get?_erase_of_ne hx, hx]
  · intro j t ht
    obtain ⟨s, hs, -⟩ := hscope ht
    exact h.scope_lt j s hs
  · intro x j hx
    exact h.slot_lt x j ((h.holds_dropCell ho).1 hx).1
  · intro j t ht
    obtain ⟨s, hs, hnames, -⟩ := hscope ht
    exact hnames ▸ h.named_lt j s hs

/-- A cell without a name is in nobody's way. -/
theorem spares_dropCell (hb : e.isBound slot = false) :
    Spares except e (e.dropCell i slot) := by
  refine ⟨Int.le_refl _, fun j name x hj hx _ => ?_⟩
  have hne : x ≠ slot := by
    rintro rfl
    simp [isBound_of_slot? hx] at hb
  exact ⟨hj.modifyScope fun _ _ _ hr => hr, slot?_dropCell.trans hx,
    Assoc.get?_erase_of_ne hne e.owners, fun _ => value?_dropCell (.inr hne)⟩

theorem Indexed.allocate (h : Indexed e) (hs : e.scope? i = some s) :
    Indexed (e.allocate i v).2 := by
  have hholds : ∀ {j x}, (e.allocate i v).2.Holds j x ↔ e.Holds j x ∨ j = i ∧ x = e.nextSlot :=
    holds_allocate hs
  have hscope : ∀ {j t}, (e.allocate i v).2.scope? j = some t →
      ∃ r, e.scope? j = some r ∧ t.names = r.names ∧
        (t.cells = r.cells ∨ t.cells = Assoc.insert e.nextSlot v r.cells) := by
    intro j t ht
    rw [scope?_allocate] at ht
    split at ht
    · obtain ⟨r, hr, rfl⟩ := Option.map_eq_some_iff.1 ht
      exact ⟨r, hr, rfl, .inr rfl⟩
    · exact ⟨t, ht, rfl, .inl rfl⟩
  constructor
  · simpa [Environment.allocate, Environment.modifyScope] using h.scopes_nodup
  · exact Assoc.nodup_keys_insert h.owners_nodup
  · intro j t ht
    obtain ⟨r, hr, hnames, -⟩ := hscope ht
    exact hnames ▸ h.names_nodup j r hr
  · intro j t ht
    obtain ⟨r, hr, -, hcells | hcells⟩ := hscope ht
    · exact hcells ▸ h.cells_nodup j r hr
    · exact hcells ▸ Assoc.nodup_keys_insert (h.cells_nodup j r hr)
  · intro x j
    rw [hholds, ← h.owner_iff]
    change Assoc.get? x (Assoc.insert e.nextSlot i e.owners) = some j ↔ _
    have hnone : Assoc.get? e.nextSlot e.owners ≠ some j := fun hg =>
      Int.lt_irrefl _ (h.slot_lt _ j ((h.owner_iff _ j).1 hg))
    rw [Assoc.get?_insert]
    grind
  · intro j t ht
    obtain ⟨r, hr, -⟩ := hscope ht
    exact h.scope_lt j r hr
  · intro x j hx
    change x < e.nextSlot + 1
    rcases hholds.1 hx with hx | ⟨-, rfl⟩
    · exact Int.lt_add_one_of_le (Int.le_of_lt (h.slot_lt x j hx))
    · exact Int.lt_succ _
  · intro j t ht p hp
    obtain ⟨r, hr, hnames, -⟩ := hscope ht
    exact Int.lt_add_one_of_le (Int.le_of_lt (h.named_lt j r hr p (hnames ▸ hp)))

/-- A new slot is not one that a name stands for already. -/
theorem Indexed.spares_declared (h : Indexed e) (hs : e.scope? i = some s)
    (hfree : Assoc.get? name s.names = none) : Spares except e (Scoped.declared i name e) := by
  refine ⟨Int.le_add_one (Int.le_refl _), fun j n x hj hx _ => ?_⟩
  have hne : e.nextSlot ≠ x := Int.ne_of_gt (h.slot?_lt hx)
  have hother : ¬ (i = j ∧ name = n) := by
    rintro ⟨rfl, rfl⟩
    simp [slot?, hs, hfree] at hx
  refine ⟨?_, ?_, ?_, fun k => ?_⟩
  · exact (hj.modifyScope fun _ _ _ hr => hr : (e.allocate i .null).2.IsOpen j).modifyScope
      fun _ _ _ hr => hr
  · rw [slot?_declared hs, if_neg hother, hx]
  · exact (Assoc.get?_insert ..).trans (if_neg hne)
  · rw [value?_declared hs, if_neg fun hand => hne hand.2]

theorem Indexed.declared (h : Indexed e) (hs : e.scope? i = some s) :
    Indexed (Scoped.declared i name e) :=
  (h.allocate hs).setName (Int.lt_succ _)

/-! ## Sweeping -/

/-- What a sweep may do on its way: names stand, nothing becomes released or unreleased, and the
scopes that stay have all their names and no new cells. -/
structure Trims (e e' : Environment) : Prop where
  indexed : Indexed e'
  spares : Spares (fun _ _ => False) e e'
  scopes : ∀ i t, e'.scope? i = some t →
    ∃ s, e.scope? i = some s ∧ s.released = t.released ∧ s.names = t.names
  held : ∀ i x, e'.Holds i x → e.Holds i x

theorem Indexed.trims (h : Indexed e) : Trims e e :=
  ⟨h, .refl e, fun _ t ht => ⟨t, ht, rfl, rfl⟩, fun _ _ hx => hx⟩

theorem Trims.trans {e₁ e₂ e₃ : Environment} (h : Trims e₁ e₂) (h' : Trims e₂ e₃) :
    Trims e₁ e₃ where
  indexed := h'.indexed
  spares := h.spares.trans h'.spares
  scopes i t ht := by
    obtain ⟨s, hs, hrel, hnames⟩ := h'.scopes i t ht
    obtain ⟨r, hr, hrel', hnames'⟩ := h.scopes i s hs
    exact ⟨r, hr, hrel'.trans hrel, hnames'.trans hnames⟩
  held i x hx := h.held i x (h'.held i x hx)

theorem Indexed.trims_dropCell (h : Indexed e) (ho : e.Holds i slot)
    (hb : e.isBound slot = false) : Trims e (e.dropCell i slot) where
  indexed := h.dropCell ho
  spares := spares_dropCell hb
  scopes j t ht := by
    rw [scope?_dropCell] at ht
    split at ht
    · obtain ⟨s, hs, rfl⟩ := Option.map_eq_some_iff.1 ht
      exact ⟨s, hs, rfl, rfl⟩
    · exact ⟨t, ht, rfl, rfl⟩
  held j x hx := ((h.holds_dropCell ho).1 hx).1

theorem Indexed.trims_dropCells {slots : List Int} (h : Indexed e) (hnodup : slots.Nodup)
    (hslots : ∀ x ∈ slots, e.Holds i x ∧ e.isBound x = false) :
    Trims e (e.dropCells i slots) := by
  induction slots generalizing e with
  | nil => exact h.trims
  | cons x rest ih =>
    obtain ⟨hx, hrest⟩ := List.nodup_cons.1 hnodup
    obtain ⟨hheld, hfree⟩ := hslots x List.mem_cons_self
    have hstep := h.trims_dropCell hheld hfree
    refine hstep.trans (ih hstep.indexed hrest fun y hy => ?_)
    obtain ⟨hy', hfree'⟩ := hslots y (List.mem_cons_of_mem x hy)
    exact ⟨holds_dropCell_of_ne (fun heq => hx (heq ▸ hy)) hy', by simpa using hfree'⟩

theorem Indexed.dropScope (h : Indexed e) (hs : e.scope? i = some s) (hc : s.cells = []) :
    Indexed (e.dropScope i s) := by
  have howners : (e.dropScope i s).owners = e.owners := congrArg (·.owners) dropScope_eq
  have hslot : (e.dropScope i s).nextSlot = e.nextSlot := congrArg (·.nextSlot) dropScope_eq
  have hnext : (e.dropScope i s).nextScope = e.nextScope := congrArg (·.nextScope) dropScope_eq
  constructor
  · rw [keys_scopes_dropScope]
    exact h.scopes_nodup.erase i
  · exact howners ▸ h.owners_nodup
  · intro j t ht
    obtain ⟨-, o, _, ho, rfl⟩ := exists_of_scope?_dropScope h.scopes_nodup ht
    exact h.names_nodup j o ho
  · intro j t ht
    obtain ⟨-, o, _, ho, rfl⟩ := exists_of_scope?_dropScope h.scopes_nodup ht
    exact h.cells_nodup j o ho
  · intro x j
    rw [howners, holds_dropScope h.scopes_nodup hs hc]
    exact h.owner_iff x j
  · intro j t ht
    obtain ⟨-, o, _, ho, -⟩ := exists_of_scope?_dropScope h.scopes_nodup ht
    exact hnext ▸ h.scope_lt j o ho
  · intro x j hx
    exact hslot ▸ h.slot_lt x j ((holds_dropScope h.scopes_nodup hs hc).1 hx)
  · intro j t ht
    obtain ⟨-, o, _, ho, rfl⟩ := exists_of_scope?_dropScope h.scopes_nodup ht
    exact hslot ▸ h.named_lt j o ho

/-- A released scope without cells is in nobody's way. -/
theorem Indexed.spares_dropScope (h : Indexed e) (hs : e.scope? i = some s) (hc : s.cells = [])
    (hr : s.released = true) : Spares except e (e.dropScope i s) := by
  have hslot : (e.dropScope i s).nextSlot = e.nextSlot := congrArg (·.nextSlot) dropScope_eq
  have howners : (e.dropScope i s).owners = e.owners := congrArg (·.owners) dropScope_eq
  refine ⟨Int.le_of_eq hslot.symm, fun j name x hj hx _ => ?_⟩
  have hne := hj.ne_of_released hs hr
  exact ⟨hj.dropScope h.scopes_nodup hne, (slot?_dropScope h.scopes_nodup hne).trans hx,
    congrArg (Assoc.get? x) howners, fun _ => value?_dropScope h.scopes_nodup hs hc⟩

theorem Indexed.trims_dropScope (h : Indexed e) (hs : e.scope? i = some s) (hc : s.cells = [])
    (hr : s.released = true) : Trims e (e.dropScope i s) where
  indexed := h.dropScope hs hc
  spares := h.spares_dropScope hs hc hr
  scopes j t ht := by
    obtain ⟨-, o, _, ho, rfl⟩ := exists_of_scope?_dropScope h.scopes_nodup ht
    exact ⟨o, ho, rfl, rfl⟩
  held j x hx := (holds_dropScope h.scopes_nodup hs hc).1 hx

theorem Indexed.trims_sweepScope (h : Indexed e)
    (hr : ∀ s, e.scope? i = some s → s.released = true) : Trims e (e.sweepScope i) := by
  unfold sweepScope
  split
  · exact h.trims
  · rename_i s hs
    have hcells : Trims e (((Assoc.keys s.cells).filter fun slot => !e.isBound slot).foldl
        (fun e slot => e.dropCell i slot) e) := by
      refine h.trims_dropCells ((h.cells_nodup i s hs).filter _) fun x hx => ?_
      obtain ⟨hx, hfree⟩ := List.mem_filter.1 hx
      exact ⟨⟨s, hs, hx⟩, by simpa using hfree⟩
    dsimp only
    split
    · rename_i hempty
      obtain ⟨o, ho, hrel, -⟩ := hcells.scopes i _ hempty
      exact hcells.trans (hcells.indexed.trims_dropScope hempty rfl (hrel.symm.trans (hr o ho)))
    · exact hcells

theorem Indexed.trims_sweep (h : Indexed e) : Trims e e.sweep := by
  have hfold : ∀ (indices : List Int) (e' : Environment), Trims e e' →
      (∀ i ∈ indices, ∀ s, e.scope? i = some s → s.released = true) →
      Trims e (indices.foldl sweepScope e') := by
    intro indices
    induction indices with
    | nil => exact fun _ htrims _ => htrims
    | cons i rest ih =>
      intro e' htrims hr
      obtain ⟨hi, hrest⟩ := List.forall_mem_cons.1 hr
      refine ih _ (htrims.trans (htrims.indexed.trims_sweepScope fun t ht => ?_)) hrest
      obtain ⟨s, hs, hrel, -⟩ := htrims.scopes i t ht
      exact hrel.symm.trans (hi s hs)
  refine hfold _ e h.trims fun i hi s hs => ?_
  obtain ⟨⟨k, t⟩, hkt, rfl⟩ := List.mem_map.1 hi
  obtain ⟨hmem, hrel⟩ := List.mem_filter.1 hkt
  obtain rfl : t = s := by simpa [hs] using ((mem_scopes_iff h.scopes_nodup).1 hmem).symm
  exact hrel

/-! ## Operations -/

theorem Indexed.unbound (h : Indexed e) (slot : Int) :
    Indexed (Scoped.unbound i name slot e) ∧
      Spares (fun j n => j = i ∧ n = name) e (Scoped.unbound i name slot e) := by
  have herase : Indexed (e.eraseName i name) := h.eraseName
  have hspares : Spares (fun j n => j = i ∧ n = name) e (e.eraseName i name) := spares_eraseName
  have hadd : ∀ {e'}, Trims (e.eraseName i name) e' →
      Indexed e' ∧ Spares (fun j n => j = i ∧ n = name) e e' := fun htrims =>
    ⟨htrims.indexed, hspares.trans (htrims.spares.weaken fun _ _ hf => hf.elim)⟩
  simp only [Scoped.unbound]
  split
  · exact ⟨herase, hspares⟩
  · rename_i hb
    split
    · rename_i o ho
      have hdrop := herase.trims_dropCell ((herase.owner_iff slot o).1 ho) (by simpa using hb)
      exact hadd (hdrop.trans hdrop.indexed.trims_sweep)
    · exact hadd herase.trims_sweep

/-- An operation ends, one way or the other, with the names standing and the tables in order. -/
def Careful {α : Type} (act : Scoped α) (e : Environment) (except : Int → String → Prop) : Prop :=
  Ends act e (fun _ e' => Indexed e' ∧ Spares except e e') fun _ e' =>
    Indexed e' ∧ Spares except e e'

theorem Indexed.spared (h : Indexed e) : Indexed e ∧ Spares except e e := ⟨h, .refl e⟩

theorem Indexed.unset (h : Indexed e) (name : String) (i? : Option Int) :
    Careful (Scoped.unset name i?) e fun j n => j = i?.getD e.current ∧ n = name := by
  rw [Careful, Scoped.ends_unset]
  exact ⟨fun _ => h.spared, fun s _ => ⟨fun _ => h.spared, fun slot _ => h.unbound slot⟩⟩

theorem Indexed.declare (h : Indexed e) (name : String) (i? : Option Int) :
    Careful (Scoped.declare name i?) e except := by
  rw [Careful, Scoped.ends_declare]
  refine ⟨fun _ => h.spared, fun s hs => ⟨fun hfree => ?_, fun slot _ => ?_⟩⟩
  · exact ⟨h.declared hs, h.spares_declared hs hfree⟩
  · exact ⟨fun _ => h.spared, fun _ _ => h.spared⟩

/-- Binding takes a name nothing but its old slot. That slot must have an owner for the tables to
stay in order. -/
theorem Indexed.ends_bind (h : Indexed e) (name : String) (l : Location) (i? : Option Int) :
    Ends (Scoped.bind name l i?) e
      (fun _ e' => (l.slot < e.nextSlot → Indexed e') ∧
        Spares (fun j n => j = i?.getD e.current ∧ n = name) e e')
      fun _ e' => Indexed e' ∧ Spares (fun j n => j = i?.getD e.current ∧ n = name) e e' := by
  unfold Scoped.bind
  split
  · exact h.spared
  · simp only [PhpInterpreter.ends_bind, Scoped.ends_orCurrent, Scoped.ends_get]
    refine ⟨fun s hs => ?_, fun _ => h.spared⟩
    split
    · exact ⟨fun _ => h, .refl e⟩
    · simp only [PhpInterpreter.ends_bind, Scoped.ends_get, ends_modify]
      refine (h.unset name (some (i?.getD e.current))).mono ?_ fun _ _ hu => hu
      rintro - e' ⟨hindexed, hspares⟩
      refine ⟨fun t _ => ⟨fun hlt => ?_, hspares.trans spares_setName⟩,
        fun _ => ⟨hindexed, hspares⟩⟩
      exact hindexed.setName (Int.lt_of_lt_of_le hlt hspares.next)

theorem Indexed.bindGlobal (h : Indexed e) (name : String) :
    Careful (Scoped.bindGlobal name) e fun j n => j = e.current ∧ n = name := by
  -- The location is that of a slot in use, and declaring leaves the current scope as it is.
  have hdeclare : Ends (Scoped.declare name (some globalIndex)) e
      (fun l e' => l.slot < e'.nextSlot ∧ e'.current = e.current) (fun _ _ => True) := by
    rw [Scoped.ends_declare]
    refine ⟨fun _ => trivial, fun s hs => ⟨fun _ => ⟨Int.lt_succ _, rfl⟩, fun slot hname => ?_⟩⟩
    exact ⟨fun _ => trivial, fun _ _ =>
      ⟨h.named_lt _ s hs (name, slot) (Assoc.mem_of_get? hname), rfl⟩⟩
  simp only [Careful, Scoped.bindGlobal, PhpInterpreter.ends_bind]
  refine ((h.declare name (some globalIndex)).and hdeclare).mono ?_ fun _ _ hd => hd.1
  rintro l e' ⟨⟨hindexed, hspares⟩, hlt, hcurrent⟩
  simp only [ends_getThe]
  split
  · have hexcept : ∀ j n, j = none.getD e'.current ∧ n = name → j = e.current ∧ n = name := by
      rintro j n ⟨rfl, rfl⟩
      exact ⟨hcurrent, rfl⟩
    simp only [PhpInterpreter.ends_bind, ends_pure]
    refine (hindexed.ends_bind name l none).mono ?_ ?_
    · exact fun _ e'' hb => ⟨hb.1 hlt, hspares.trans (hb.2.weaken hexcept)⟩
    · exact fun _ e'' hb => ⟨hb.1, hspares.trans (hb.2.weaken hexcept)⟩
  · exact ⟨hindexed, hspares⟩

theorem Indexed.release (h : Indexed e) (i : Int) :
    Careful (Scoped.release i) e fun j _ => j = i := by
  simp only [Careful, Scoped.release, PhpInterpreter.ends_bind, ends_getThe]
  split
  · exact h.spared
  · split
    · exact h.spared
    · simp only [PhpInterpreter.ends_bind, Scoped.ends_get, ends_modify]
      refine ⟨fun s hs => ?_, fun _ => h.spared⟩
      have hindexed : Indexed
          (e.modifyScope i fun s => { s with names := [], released := true }) :=
        h.modifyScope (fun _ _ => rfl) (fun _ _ => List.nodup_nil)
          fun _ _ _ hp => absurd hp List.not_mem_nil
      have hsweep := hindexed.trims_sweep
      refine ⟨hsweep.indexed, Spares.trans ?_ (hsweep.spares.weaken fun _ _ hf => hf.elim)⟩
      exact spares_modifyScope (fun _ _ _ _ hout => absurd rfl hout) fun _ _ _ _ _ _ _ => rfl

theorem Indexed.addScope {kind : ScopeKind} {outer : Int} (h : Indexed e)
    (ho : e.scope? outer = some t) : Indexed (e.addScope name kind outer) := by
  have hfree := h.scope?_nextScope
  constructor
  · simpa [Environment.addScope, Environment.modifyScope] using
      Assoc.nodup_keys_insert h.scopes_nodup
  · exact h.owners_nodup
  · intro j r hr
    rcases exists_of_scope?_addScope hfree ho hr with ⟨-, rfl⟩ | ⟨o, _, hso, rfl⟩
    · exact List.nodup_nil
    · exact h.names_nodup j o hso
  · intro j r hr
    rcases exists_of_scope?_addScope hfree ho hr with ⟨-, rfl⟩ | ⟨o, _, hso, rfl⟩
    · exact List.nodup_nil
    · exact h.cells_nodup j o hso
  · intro x j
    rw [holds_addScope hfree ho]
    exact h.owner_iff x j
  · intro j r hr
    rcases exists_of_scope?_addScope hfree ho hr with ⟨rfl, -⟩ | ⟨o, _, hso, -⟩
    · exact Int.lt_succ _
    · exact Int.lt_add_one_of_le (Int.le_of_lt (h.scope_lt j o hso))
  · intro x j hx
    exact h.slot_lt x j ((holds_addScope hfree ho).1 hx)
  · intro j r hr
    rcases exists_of_scope?_addScope hfree ho hr with ⟨-, rfl⟩ | ⟨o, _, hso, rfl⟩
    · exact fun _ hp => absurd hp List.not_mem_nil
    · exact h.named_lt j o hso

theorem Indexed.spares_addScope {kind : ScopeKind} {outer : Int} (h : Indexed e)
    (ho : e.scope? outer = some t) : Spares except e (e.addScope name kind outer) := by
  have hfree := h.scope?_nextScope
  exact ⟨Int.le_refl _, fun j n x hj hx _ => ⟨isOpen_addScope hfree ho hj,
    (slot?_addScope hfree ho).trans hx, rfl, fun _ => value?_addScope hfree ho⟩⟩

theorem Indexed.create (h : Indexed e) (name kind : String) (outer? : Option Int) :
    Careful (Scoped.create name kind outer?) e except := by
  rw [Careful]
  unfold Scoped.create
  split
  · exact h.spared
  · simp only [PhpInterpreter.ends_bind, Scoped.ends_orCurrent, Scoped.ends_get, ends_modifyGet]
    exact ⟨fun o ho => ⟨h.addScope ho, h.spares_addScope ho⟩, fun _ => h.spared⟩

theorem Indexed.active {back : List Int} {handle : Int} (h : Indexed e) :
    Indexed { e with current := i, entered := back, nextHandle := handle } ∧
      Spares except e { e with current := i, entered := back, nextHandle := handle } :=
  ⟨⟨h.scopes_nodup, h.owners_nodup, h.names_nodup, h.cells_nodup, h.owner_iff, h.scope_lt,
      h.slot_lt, h.named_lt⟩,
    Int.le_refl _, fun _ _ _ hi hslot _ => ⟨hi, hslot, rfl, fun _ => rfl⟩⟩

theorem Indexed.enter (h : Indexed e) (i : Int) : Careful (Scoped.enter i) e except := by
  simp only [Careful, Scoped.enter, PhpInterpreter.ends_bind, Scoped.ends_get, ends_modify]
  exact ⟨fun _ _ => h.active, fun _ => h.spared⟩

theorem Indexed.leave (h : Indexed e) : Careful Scoped.leave e except := by
  simp only [Careful, Scoped.leave, PhpInterpreter.ends_bind, ends_getThe]
  split
  · exact h.spared
  · exact h.active

theorem Indexed.newObject (h : Indexed e) (className : String) (i? : Option Int) :
    Careful (Scoped.newObject className i?) e except := by
  simp only [Careful, Scoped.newObject, PhpInterpreter.ends_bind, Scoped.ends_orCurrent,
    ends_modifyGet, Scoped.ends_get, ends_modify, ends_pure]
  have hhandle : Indexed { e with nextHandle := e.nextHandle + 1 } ∧
      Spares except e { e with nextHandle := e.nextHandle + 1 } := h.active
  refine ⟨fun _ _ => ⟨?_, hhandle.2.trans ?_⟩, fun _ => hhandle⟩
  · exact hhandle.1.modifyScope (fun _ _ => rfl) (hhandle.1.names_nodup _)
      fun s hs => hhandle.1.named_lt _ s hs
  · exact spares_modifyScope (fun _ _ _ hr _ => ⟨hr, rfl⟩) fun _ _ _ _ _ _ _ => rfl

theorem Indexed.store (h : Indexed e) (l : Location) (v : Value) :
    Careful (Scoped.store l v) e fun j n => e.slot? j n = some l.slot := by
  rw [Careful, Scoped.ends_store]
  refine ⟨fun _ => h.spared, fun _ => ⟨fun _ => h.spared, fun s _ => ⟨fun _ => h.spared, ?_⟩⟩⟩
  refine fun _ _ => ⟨fun _ => h.spared, fun new _ => ⟨?_, ?_⟩⟩
  · exact h.modifyScope (fun _ _ => Assoc.keys_modify ..) (h.names_nodup _)
      fun s hs => h.named_lt _ s hs
  · refine spares_modifyScope (fun _ _ _ hr _ => ⟨hr, rfl⟩) fun s _ j n x hx hout => ?_
    have hne : l.slot ≠ x := fun heq => hout (heq ▸ hx)
    rw [Assoc.get?_modify, if_neg hne]

theorem indexed_init : Indexed init := by
  have h := consistent_init
  exact ⟨h.scopes_nodup, h.owners_nodup, fun i s hs => (h.fits i s hs).names_nodup,
    fun i s hs => (h.fits i s hs).cells_nodup, h.owner_iff,
    fun i s hs => (h.fits i s hs).lt_next, h.slot_lt, by
      intro i s hs p hp
      obtain ⟨j, hj⟩ := (h.fits i s hs).named p.1 p.2 hp
      exact h.slot_lt p.2 j hj⟩

end Environment

namespace Action

/-- A name is only bound to a whole slot that has an owner at that moment. -/
def Owned (e : Environment) : Action → Prop
  | bind _ l _ => l.path = [] ∧ l.char? = none ∧ ∃ o, Assoc.get? l.slot e.owners = some o
  | _ => True

/-- The variables an action is about: a store is about all names of the slot. -/
def Concerns (e : Environment) : Action → Int → String → Prop
  | unset n i?, j, name | bind n _ i?, j, name => j = i?.getD e.current ∧ name = n
  | bindGlobal n, j, name => j = e.current ∧ name = n
  | release i, j, _ => j = i
  | store l _, j, name => e.slot? j name = some l.slot
  | create .., _, _ | enter _, _, _ | leave, _, _ | declare .., _, _ | newObject .., _, _ => False

end Action

namespace Environment

variable {e : Environment} {a : Action} {i slot : Int} {name : String}

/-- Any actions lead to the environment, as long as names are bound to slots with an owner. -/
inductive Attained : Environment → Prop
  | init : Attained init
  | act {e : Environment} {a : Action} (h : Attained e) (ha : a.Owned e) : Attained (a.apply e)

/-- One action spares what it is not about. -/
theorem Indexed.apply (h : Indexed e) (a : Action) :
    (a.Owned e → Indexed (a.apply e)) ∧ Spares (a.Concerns e) e (a.apply e) := by
  have hcareful : ∀ {α : Type} {act : Scoped α} {except : Int → String → Prop},
      Careful act e except →
        (a.Owned e → Indexed (act.run.run e).2) ∧ Spares except e (act.run.run e).2 :=
    fun hc => ⟨fun _ => (Ends.state hc).1, (Ends.state hc).2⟩
  cases a with
  | create n kind outer? => exact hcareful (h.create n kind outer?)
  | enter i => exact hcareful (h.enter i)
  | leave => exact hcareful h.leave
  | release i => exact hcareful (h.release i)
  | declare n i? => exact hcareful (h.declare n i?)
  | unset n i? => exact hcareful (h.unset n i?)
  | bindGlobal n => exact hcareful (h.bindGlobal n)
  | store l v => exact hcareful (h.store l v)
  | newObject c i? => exact hcareful (h.newObject c i?)
  | bind n l i? =>
    have hbind := ((h.ends_bind n l i?).mono (fun _ _ hb => hb)
      fun _ _ hb => And.intro (fun _ => hb.1) hb.2).state
    refine ⟨?_, hbind.2⟩
    rintro ⟨-, -, o, ho⟩
    exact hbind.1 (h.slot_lt _ o ((h.owner_iff _ o).1 ho))

theorem Attained.indexed (h : Attained e) : Indexed e := by
  induction h with
  | init => exact indexed_init
  | act _ ha ih => exact (ih.apply _).1 ha

theorem lookup_fst (h : e.slot? i name = some slot) :
    ((Scoped.lookup name (some i)).run.run e).1 = (Assoc.get? slot e.owners).elim
      (.error (.noOwner slot)) fun o => .ok (some ⟨o, slot, [], none⟩) := by
  obtain ⟨s, hs, hname⟩ := Option.bind_eq_some_iff.1 h
  generalize hfound : (Assoc.get? slot e.owners).elim _ _ = found
  have hends : Ends (Scoped.lookup name (some i)) e (fun l? _ => .ok l? = found)
      (fun b _ => .error b = found) := by
    rw [Scoped.ends_lookup]
    simp only [Option.getD_some, hs]
    cases ho : Assoc.get? slot e.owners <;> simp_all
  rcases hr : (Scoped.lookup name (some i)).run.run e with ⟨r, t⟩
  cases r with
  | ok l? => exact hends.of_ok hr
  | error b => exact hends.of_error hr

theorem Stands.load {e' : Environment} (h : Stands e e' i name slot) (j : Int) (path : List Key)
    (char? : Option Int) :
    e'.load ⟨j, slot, path, char?⟩ = e.load ⟨j, slot, path, char?⟩ := by
  have hcell : ∀ d : Environment, (d.scope? j).bind (fun s => Assoc.get? slot s.cells) =
      d.value? j slot := fun _ => rfl
  simp only [Environment.load, hcell, h.value j]

/-- No action loses a variable it is not about: a name of an unreleased scope stands for the same
slot afterwards, looking it up gives the same location, and the same is found there. -/
theorem live_of_attained (h : Attained e) (hopen : e.IsOpen i) (hslot : e.slot? i name = some slot)
    (a : Action) (hother : ¬ a.Concerns e i name) :
    (a.apply e).IsOpen i ∧ (a.apply e).slot? i name = some slot ∧
      ((Scoped.lookup name (some i)).run.run (a.apply e)).1 =
        ((Scoped.lookup name (some i)).run.run e).1 ∧
      ∀ j path char?,
        (a.apply e).load ⟨j, slot, path, char?⟩ = e.load ⟨j, slot, path, char?⟩ := by
  have hstands := (h.indexed.apply a).2.stands i name slot hopen hslot hother
  refine ⟨hstands.isOpen, hstands.bound, ?_, hstands.load⟩
  rw [lookup_fst hstands.bound, lookup_fst hslot, hstands.owner]

/-- A global name keeps the variable of a function whose scope is released, while the function's
other variable goes. -/
theorem live_of_attained_alias :
    ∃ e, Attained e ∧ e.IsOpen 0 ∧ e.slot? 0 "y" = some 1 ∧ e.Holds 1 2 ∧
      e.load ⟨1, 1, [], none⟩ = .int 7 ∧ ¬ ((Action.release 1).apply e).Holds 1 2 ∧
      ((Action.release 1).apply e).slot? 0 "y" = some 1 ∧
      ((Action.release 1).apply e).load ⟨1, 1, [], none⟩ = .int 7 := by
  have run : ∃ e, Attained e ∧ e.IsOpen 0 ∧ e.slot? 0 "y" = some 1 ∧ e.Holds 1 2 ∧
      e.load ⟨1, 1, [], none⟩ = .int 7 ∧ ¬ ((Action.release 1).apply e).Holds 1 2 := by
    refine ⟨_, .act (a := .leave) (.act (a := .declare "z" none)
      (.act (a := .bind "y" ⟨1, 1, [], none⟩ (some 0)) (.act (a := .store ⟨1, 1, [], none⟩ (.int 7))
      (.act (a := .declare "x" none) (.act (a := .enter 1)
      (.act (a := .create "f" "function" none) .init trivial) trivial) trivial) trivial)
      ⟨rfl, rfl, 1, rfl⟩) trivial) trivial, ⟨_, rfl, rfl⟩, rfl, ⟨_, rfl, by decide⟩, rfl, ?_⟩
    rintro ⟨s, ⟨⟩, hmem⟩
    revert hmem
    decide
  obtain ⟨e, hatt, hopen, hslot, hheld, hload, hgone⟩ := run
  have hother : ¬ (Action.release 1).Concerns e 0 "y" := by
    intro hc
    cases hc
  obtain ⟨-, hslot', -, hload'⟩ := live_of_attained hatt hopen hslot (.release 1) hother
  exact ⟨e, hatt, hopen, hslot, hheld, hload, hgone, hslot', (hload' 1 [] none).trans hload⟩

end Environment

end PhpInterpreter
