import PhpInterpreter.Proofs.Scope.Sweep

/-!
The changes the operations on environments consist of: a new scope, a new cell, a name bound or
unbound, other contents of a scope. Each keeps the environment consistent.
-/

namespace PhpInterpreter.Environment

variable {e : Environment} {i j slot outer : Int} {s t : Scope} {name : String} {kind : ScopeKind}

/-- A change that keeps the cells of a scope and takes no slot its last name. -/
theorem Consistent.modifyScope {f : Scope → Scope} (h : Consistent e)
    (hf : ∀ s, e.scope? i = some s → e.Keeps i s (f s) ∧ (f s).released = s.released)
    (hb : ∀ x, e.isBound x = true → (e.modifyScope i f).isBound x = true) :
    Consistent (e.modifyScope i f) := by
  refine ⟨h.toLinked.modifyScope fun s hs => (hf s hs).1, ?_⟩
  intro j t ht hr
  rw [scope?_modifyScope] at ht
  split at ht
  · subst j
    obtain ⟨s, hs, rfl⟩ := Option.map_eq_some_iff.1 ht
    obtain ⟨hk, hrel⟩ := hf s hs
    obtain ⟨hne, hbound⟩ := h.kept i s hs (hrel ▸ hr)
    have hkeys : Assoc.keys (f s).cells = Assoc.keys s.cells := hk.keys
    refine ⟨?_, ?_⟩
    · intro hnil
      apply hne
      simpa [hnil, Assoc.keys] using hkeys.symm
    · rw [hkeys]
      exact fun x hx => hb x (hbound x hx)
  · obtain ⟨hne, hbound⟩ := h.kept j t ht hr
    exact ⟨hne, fun x hx => hb x (hbound x hx)⟩

/-- Other contents in the same cells, or on the heap. -/
theorem Consistent.modifyContents {f : Scope → Scope} (h : Consistent e)
    (hf : ∀ s, e.scope? i = some s → ∃ cells heap,
      f s = { s with cells := cells, heap := heap } ∧ Assoc.keys cells = Assoc.keys s.cells) :
    Consistent (e.modifyScope i f) := by
  have hnames : ∀ s, e.scope? i = some s → (f s).names = s.names := by
    intro s hs
    obtain ⟨cells, heap, hfs, -⟩ := hf s hs
    rw [hfs]
  refine h.modifyScope (fun s hs => ?_) fun x hx => (isBound_modifyScope hnames).trans hx
  obtain ⟨cells, heap, hfs, hkeys⟩ := hf s hs
  have hfit := h.fits i s hs
  rw [hfs]
  exact ⟨⟨rfl, rfl, rfl, hkeys, hfit.names_nodup, hfit.named, hfit.bare, fun h0 h1 => by simp_all⟩,
    rfl⟩

/-! ## Names -/

/-- Binding a name that was free. -/
theorem Consistent.setName (h : Consistent e) (hs : e.scope? i = some s) (ho : s.released = false)
    (hname : Assoc.get? name s.names = none) (hslot : ∃ j, e.Holds j slot) :
    Consistent (e.setName i name slot) := by
  have hmem : Assoc.insert name slot s.names = s.names ++ [(name, slot)] :=
    Assoc.insert_of_notMem slot (Assoc.get?_eq_none_iff.1 hname)
  refine h.modifyScope (fun t ht => ⟨?_, rfl⟩) fun x hx => ?_
  · obtain rfl : s = t := by simpa [hs] using ht
    have hfit := h.fits i s hs
    refine ⟨rfl, rfl, rfl, rfl, Assoc.nodup_keys_insert hfit.names_nodup, ?_, ?_, fun _ h1 => ?_⟩
    · intro n x hx
      rcases Assoc.mem_insert hx with heq | hx
      · obtain ⟨rfl, rfl⟩ := Prod.mk.inj heq
        exact hslot
      · exact hfit.named n x hx
    · intro hr
      simp [ho] at hr
    · simp [ho] at h1
  · have hnodup : (Assoc.keys (e.setName i name slot).scopes).Nodup := by
      simpa [Environment.setName, Environment.modifyScope] using h.scopes_nodup
    obtain ⟨j, t, n, ht, hn⟩ := (isBound_iff h.scopes_nodup).1 hx
    refine (isBound_iff hnodup).2 ?_
    by_cases hij : i = j
    · subst j
      obtain rfl : s = t := by simpa [hs] using ht
      refine ⟨i, { s with names := Assoc.insert name slot s.names }, n, ?_, ?_⟩
      · simp [Environment.setName, hs]
      · simp [hmem, hn]
    · exact ⟨j, t, n, by simp [Environment.setName, hij, ht], hn⟩

/-- Unbinding a name. -/
def eraseName (i : Int) (name : String) (e : Environment) : Environment :=
  e.modifyScope i fun s => { s with names := Assoc.erase name s.names }

theorem keeps_eraseName (h : Linked e) (hs : e.scope? i = some s) :
    e.Keeps i s { s with names := Assoc.erase name s.names } := by
  have hfit := h.fits i s hs
  refine ⟨rfl, rfl, rfl, rfl, Assoc.nodup_keys_erase hfit.names_nodup, ?_, ?_, ?_⟩
  · exact fun n x hx => hfit.named n x (Assoc.mem_of_mem_erase hx)
  · intro hr
    simp [hfit.bare hr, Assoc.erase]
  · intro h0 h1
    simp_all

theorem isBound_eraseName {x : Int} (h : Linked e) (hs : e.scope? i = some s)
    (hname : Assoc.get? name s.names = some slot) (hx : x ≠ slot) (hb : e.isBound x = true) :
    (e.eraseName i name).isBound x = true := by
  have hnodup : (Assoc.keys (e.eraseName i name).scopes).Nodup := by
    simpa [eraseName, Environment.modifyScope] using h.scopes_nodup
  obtain ⟨j, t, n, ht, hn⟩ := (isBound_iff h.scopes_nodup).1 hb
  refine (isBound_iff hnodup).2 ?_
  by_cases hij : i = j
  · subst j
    obtain rfl : s = t := by simpa [hs] using ht
    refine ⟨i, { s with names := Assoc.erase name s.names }, n, by simp [eraseName, hs], ?_⟩
    exact Assoc.mem_erase_of_ne hname (by simp [hx]) hn
  · exact ⟨j, t, n, by simp [eraseName, hij, ht], hn⟩

/-! ## Cells -/

theorem scope?_allocate (i j : Int) (v : Value) (e : Environment) :
    (e.allocate i v).2.scope? j =
      if i = j then
        (e.scope? j).map fun s => { s with cells := Assoc.insert e.nextSlot v s.cells }
      else e.scope? j :=
  scope?_modifyScope ..

theorem holds_allocate {x : Int} {v : Value} (hs : e.scope? i = some s) :
    (e.allocate i v).2.Holds j x ↔ e.Holds j x ∨ j = i ∧ x = e.nextSlot := by
  unfold Holds
  rw [scope?_allocate]
  by_cases hij : i = j
  · subst j
    simp [hs, Assoc.mem_keys_insert, or_comm]
  · simp [hij, Ne.symm hij]

theorem Consistent.allocate {v : Value} (h : Consistent e) (hs : e.scope? i = some s)
    (ho : s.released = false) : Consistent (e.allocate i v).2 := by
  have hfresh : ∀ j, ¬ e.Holds j e.nextSlot := fun j hj => Int.lt_irrefl _ (h.slot_lt _ j hj)
  have hholds : ∀ {j x}, (e.allocate i v).2.Holds j x ↔ e.Holds j x ∨ j = i ∧ x = e.nextSlot :=
    holds_allocate hs
  have hchildren : ∀ j, (e.allocate i v).2.children j = e.children j :=
    fun j => children_modifyScope fun _ _ => ⟨rfl, rfl⟩
  have hbound : ∀ x, (e.allocate i v).2.isBound x = e.isBound x :=
    fun x => isBound_modifyScope fun _ _ => rfl
  have hopen : ∀ {j}, e.IsOpen j → (e.allocate i v).2.IsOpen j :=
    fun hj => hj.modifyScope fun _ _ _ hr => hr
  have hmono : ∀ {j t}, e.scope? j = some t → (e.allocate i v).2.Fits j t := fun {j t} ht =>
    (h.fits j t ht).mono (Int.le_refl _) (fun _ _ _ k hk => ⟨k, hholds.2 (.inl hk)⟩) (hchildren j)
  refine ⟨⟨?_, Assoc.nodup_keys_insert h.owners_nodup, ?_, ?_, ?_, hopen h.global_open,
    hopen h.current_open, fun j hj => hopen (h.entered_open j hj)⟩, ?_⟩
  · simpa [Environment.allocate, Environment.modifyScope] using h.scopes_nodup
  · intro j t ht
    rw [scope?_allocate] at ht
    split at ht
    · subst j
      obtain rfl : { s with cells := Assoc.insert e.nextSlot v s.cells } = t := by
        simpa [hs] using ht
      have hfit := hmono hs
      exact { hfit with cells_nodup := Assoc.nodup_keys_insert hfit.cells_nodup }
    · exact hmono ht
  · intro x j
    rw [hholds, ← h.owner_iff]
    change Assoc.get? x (Assoc.insert e.nextSlot i e.owners) = some j ↔ _
    rw [Assoc.get?_insert]
    have hnone : Assoc.get? e.nextSlot e.owners ≠ some j :=
      fun hg => hfresh j ((h.owner_iff _ j).1 hg)
    grind
  · intro x j hx
    change x < e.nextSlot + 1
    rcases hholds.1 hx with hx | ⟨-, rfl⟩
    · have := h.slot_lt x j hx
      omega
    · omega
  · intro j t ht hr
    rw [scope?_allocate] at ht
    split at ht
    · subst j
      obtain rfl : { s with cells := Assoc.insert e.nextSlot v s.cells } = t := by
        simpa [hs] using ht
      simp [ho] at hr
    · simpa only [hbound] using h.kept j t ht hr

/-! ## Scopes -/

/-- The environment with a new scope inside `outer`. -/
def addScope (name : String) (kind : ScopeKind) (outer : Int) (e : Environment) : Environment :=
  { e with
    scopes := Assoc.insert e.nextScope (Scope.new name kind (some outer)) e.scopes
    nextScope := e.nextScope + 1 }.modifyScope outer
      fun o => { o with enclosed := o.enclosed ++ [(kind, e.nextScope)] }

theorem scope?_nextScope (h : Linked e) : e.scope? e.nextScope = none := by
  cases hs : e.scope? e.nextScope with
  | none => rfl
  | some s => exact absurd (h.fits _ s hs).lt_next (Int.lt_irrefl _)

theorem scope?_addScope (hfree : e.scope? e.nextScope = none) (ho : e.scope? outer = some t) :
    (e.addScope name kind outer).scope? j =
      if j = e.nextScope then some (Scope.new name kind (some outer))
      else (e.scope? j).map fun o =>
        if j = outer then { o with enclosed := o.enclosed ++ [(kind, e.nextScope)] } else o := by
  have hne : outer ≠ e.nextScope := by
    rintro rfl
    simp [hfree] at ho
  rw [addScope, scope?_modifyScope]
  simp only [scope?, Assoc.get?_insert]
  by_cases hj : j = e.nextScope
  · subst j
    simp [hne]
  · by_cases hjo : outer = j
    · subst j
      simp [Ne.symm hj, hj]
    · simp [Ne.symm hj, hj, hjo, Ne.symm hjo]

/-- The old scopes differ in their lists of enclosed scopes at most. -/
theorem exists_of_scope?_addScope {r : Scope} (hfree : e.scope? e.nextScope = none)
    (ho : e.scope? outer = some t) (hr : (e.addScope name kind outer).scope? j = some r) :
    j = e.nextScope ∧ r = Scope.new name kind (some outer) ∨
      ∃ o enclosed, e.scope? j = some o ∧ r = { o with enclosed } := by
  rw [scope?_addScope hfree ho] at hr
  split at hr
  · exact .inl ⟨‹_›, (Option.some.inj hr).symm⟩
  · obtain ⟨o, hso, rfl⟩ := Option.map_eq_some_iff.1 hr
    refine .inr ⟨o, ?_⟩
    split <;> exact ⟨_, hso, rfl⟩

theorem isOpen_addScope (hfree : e.scope? e.nextScope = none) (ho : e.scope? outer = some t)
    (hj : e.IsOpen j) : (e.addScope name kind outer).IsOpen j := by
  obtain ⟨s, hs, hr⟩ := hj
  have hne : j ≠ e.nextScope := by
    rintro rfl
    simp [hfree] at hs
  rw [IsOpen, scope?_addScope hfree ho, if_neg hne, hs]
  refine ⟨_, rfl, ?_⟩
  split <;> exact hr

theorem children_addScope (h : Linked e) :
    (e.addScope name kind outer).children j =
      e.children j ++ if j = outer then [(kind, e.nextScope)] else [] := by
  have hnone := Assoc.get?_eq_none_iff.1 (scope?_nextScope h)
  rw [addScope, children_modifyScope]
  · simp only [children, Assoc.insert_of_notMem _ hnone, List.filterMap_append]
    by_cases hj : j = outer
    · simp [hj, Scope.new]
    · simp [hj, Scope.new, Ne.symm hj]
  · exact fun _ _ => ⟨rfl, rfl⟩

theorem children_nextScope (h : Linked e) : e.children e.nextScope = [] := by
  refine List.filterMap_eq_nil_iff.2 ?_
  rintro ⟨j, t⟩ hjt
  have hfit := h.fits j t ((mem_scopes_iff h.scopes_nodup).1 hjt)
  have hne : t.outer? ≠ some e.nextScope := by
    intro ho
    have := hfit.outer_lt _ ho
    have := hfit.lt_next
    omega
  simp [hne]

theorem holds_addScope {x : Int} (hfree : e.scope? e.nextScope = none)
    (ho : e.scope? outer = some t) : (e.addScope name kind outer).Holds j x ↔ e.Holds j x := by
  unfold Holds
  rw [scope?_addScope hfree ho]
  split
  · subst j
    simp [hfree, Scope.new, Assoc.keys]
  · cases e.scope? j with
    | none => simp
    | some o => split <;> simp

theorem isBound_addScope {x : Int} (h : Linked e) :
    (e.addScope name kind outer).isBound x = e.isBound x := by
  have hnone := Assoc.get?_eq_none_iff.1 (scope?_nextScope h)
  rw [addScope, isBound_modifyScope]
  · simp [isBound, Assoc.insert_of_notMem _ hnone, Scope.new, Scope.binds]
  · exact fun _ _ => rfl

theorem Consistent.addScope (h : Consistent e) (ho : e.scope? outer = some t) :
    Consistent (e.addScope name kind outer) := by
  have hl := h.toLinked
  have hfree := scope?_nextScope hl
  have hne : outer < e.nextScope := (h.fits outer t ho).lt_next
  have hopen : ∀ {j}, e.IsOpen j → (e.addScope name kind outer).IsOpen j :=
    isOpen_addScope hfree ho
  refine ⟨⟨?_, h.owners_nodup, ?_, ?_, ?_, hopen h.global_open, hopen h.current_open,
    fun j hj => hopen (h.entered_open j hj)⟩, ?_⟩
  · simpa [Environment.addScope, Environment.modifyScope] using
      Assoc.nodup_keys_insert h.scopes_nodup
  · intro j s hs
    rw [scope?_addScope hfree ho] at hs
    split at hs
    · subst j
      obtain rfl : Scope.new name kind (some outer) = s := by simpa using hs
      refine ⟨List.nodup_nil, List.nodup_nil, Int.lt_succ _, ?_, ?_, fun _ => rfl, ?_⟩
      · intro o hout
        obtain rfl : outer = o := by simpa [Scope.new] using hout
        exact hne
      · intro n x hx
        simp [Scope.new] at hx
      · rw [children_addScope hl, children_nextScope hl, if_neg (Int.ne_of_gt hne)]
        rfl
    · obtain ⟨o, hso, rfl⟩ := Option.map_eq_some_iff.1 hs
      have hfit := h.fits j o hso
      have hlt : j < e.nextScope + 1 := Int.lt_add_one_of_le (Int.le_of_lt hfit.lt_next)
      have hnamed : ∀ n x, (n, x) ∈ o.names → ∃ k, (e.addScope name kind outer).Holds k x := by
        intro n x hx
        simpa only [holds_addScope hfree ho] using hfit.named n x hx
      have hchildren : (e.addScope name kind outer).children j = _ := children_addScope hl
      split
      · rename_i hj
        exact ⟨hfit.names_nodup, hfit.cells_nodup, hlt, hfit.outer_lt, hnamed, hfit.bare,
          by rw [hchildren, if_pos hj, hfit.enclosed]⟩
      · rename_i hj
        exact ⟨hfit.names_nodup, hfit.cells_nodup, hlt, hfit.outer_lt, hnamed, hfit.bare,
          by rw [hchildren, if_neg hj, hfit.enclosed, List.append_nil]⟩
  · intro x j
    rw [holds_addScope hfree ho]
    exact h.owner_iff x j
  · intro x j hx
    exact h.slot_lt x j ((holds_addScope hfree ho).1 hx)
  · intro j s hs hr
    simp only [isBound_addScope hl]
    rcases exists_of_scope?_addScope hfree ho hs with ⟨-, rfl⟩ | ⟨o, enclosed, hso, rfl⟩
    · cases hr
    · exact h.kept j o hso hr

end PhpInterpreter.Environment
