import PhpInterpreter.Proofs.Scope.Operation

/-!
What the names of a scope stand for and what its cells hold, after each change of the environment.
-/

namespace PhpInterpreter

namespace Environment

variable {e : Environment} {i j slot x : Int} {s : Scope} {name n : String} {v : Value}
  {l : Location}

/-- The slot a name of the scope `i` is bound to. -/
def slot? (e : Environment) (i : Int) (name : String) : Option Int :=
  (e.scope? i).bind fun s => Assoc.get? name s.names

/-- The value in the cell of a slot in the scope `i`. -/
def value? (e : Environment) (i slot : Int) : Option Value :=
  (e.scope? i).bind fun s => Assoc.get? slot s.cells

theorem holds_iff : e.Holds i slot ↔ ∃ v, e.value? i slot = some v := by
  simp only [Holds, Assoc.mem_keys_iff, value?, Option.bind_eq_some_iff]
  constructor
  · rintro ⟨s, hs, v, hv⟩
    exact ⟨v, s, hs, hv⟩
  · rintro ⟨v, s, hs, hv⟩
    exact ⟨s, hs, v, hv⟩

theorem slot?_modifyScope {f : Scope → Scope} :
    (e.modifyScope i f).slot? j n =
      if i = j then (e.scope? j).bind fun s => Assoc.get? n (f s).names else e.slot? j n := by
  rw [slot?, scope?_modifyScope]
  split
  · rw [Option.bind_map]
    rfl
  · rfl

theorem value?_modifyScope {f : Scope → Scope} :
    (e.modifyScope i f).value? j x =
      if i = j then (e.scope? j).bind fun s => Assoc.get? x (f s).cells else e.value? j x := by
  rw [value?, scope?_modifyScope]
  split
  · rw [Option.bind_map]
    rfl
  · rfl

theorem slot?_setName (hs : e.scope? i = some s) :
    (e.setName i name slot).slot? j n =
      if i = j ∧ name = n then some slot else e.slot? j n := by
  rw [setName, slot?_modifyScope]
  by_cases hij : i = j
  · subst j
    simp [hs, slot?, Assoc.get?_insert]
  · simp [hij]

theorem value?_setName : (e.setName i name slot).value? j x = e.value? j x := by
  rw [setName, value?_modifyScope]
  split <;> rfl

theorem slot?_declared (hs : e.scope? i = some s) :
    (Scoped.declared i name e).slot? j n =
      if i = j ∧ name = n then some e.nextSlot else e.slot? j n := by
  have hscope : (e.allocate i .null).2.scope? i =
      some { s with cells := Assoc.insert e.nextSlot .null s.cells } := by
    simp [scope?_allocate, hs]
  have hsame : (e.allocate i .null).2.slot? j n = e.slot? j n := by
    rw [slot?, scope?_allocate]
    split
    · rw [Option.bind_map]
      rfl
    · rfl
  rw [Scoped.declared, slot?_setName hscope, hsame]

theorem value?_declared (hs : e.scope? i = some s) :
    (Scoped.declared i name e).value? j x =
      if i = j ∧ e.nextSlot = x then some .null else e.value? j x := by
  rw [Scoped.declared, value?_setName, value?, scope?_allocate]
  by_cases hij : i = j
  · subst j
    simp [hs, value?, Assoc.get?_insert]
  · simp [hij, value?]

theorem slot?_eraseName_of (h : ∀ s, e.scope? i = some s → (Assoc.keys s.names).Nodup) :
    (e.eraseName i name).slot? j n = if i = j ∧ name = n then none else e.slot? j n := by
  rw [eraseName, slot?_modifyScope]
  by_cases hij : i = j
  · subst j
    cases hs : e.scope? i with
    | none => simp [slot?, hs]
    | some s =>
      by_cases hn : name = n
      · subst n
        simpa using Assoc.get?_erase_self (h s hs)
      · simp [hn, slot?, hs, Assoc.get?_erase_of_ne (Ne.symm hn)]
  · simp [hij]

theorem slot?_eraseName (h : Linked e) :
    (e.eraseName i name).slot? j n = if i = j ∧ name = n then none else e.slot? j n :=
  slot?_eraseName_of fun s hs => (h.fits i s hs).names_nodup

theorem value?_eraseName : (e.eraseName i name).value? j x = e.value? j x := by
  rw [eraseName, value?_modifyScope]
  split <;> rfl

theorem slot?_dropCell : (e.dropCell i slot).slot? j n = e.slot? j n := by
  rw [slot?, scope?_dropCell]
  split
  · rw [Option.bind_map]
    rfl
  · rfl

theorem value?_dropCell (hne : j ≠ i ∨ x ≠ slot) :
    (e.dropCell i slot).value? j x = e.value? j x := by
  rw [value?, scope?_dropCell]
  split
  · subst j
    rw [value?, Option.bind_map]
    cases e.scope? i with
    | none => rfl
    | some s => exact Assoc.get?_erase_of_ne (hne.resolve_left (by simp)) s.cells
  · rfl

theorem value?_dropCell_self (h : Linked e) : (e.dropCell i slot).value? i slot = none := by
  rw [value?, scope?_dropCell, if_pos rfl, Option.bind_map]
  cases hs : e.scope? i with
  | none => rfl
  | some s => exact Assoc.get?_erase_self (h.fits i s hs).cells_nodup

theorem slot?_dropScope (h : (Assoc.keys e.scopes).Nodup) (hj : j ≠ i) :
    (e.dropScope i s).slot? j n = e.slot? j n := by
  rw [slot?, slot?, scope?_dropScope h, if_neg hj]
  cases e.scope? j with
  | none => rfl
  | some o => by_cases ho : s.outer? = some j <;> simp [ho]

theorem value?_dropScope (h : (Assoc.keys e.scopes).Nodup) (hs : e.scope? i = some s)
    (hc : s.cells = []) : (e.dropScope i s).value? j x = e.value? j x := by
  rw [value?, value?, scope?_dropScope h]
  split
  · subst j
    simp [hs, hc]
  · cases e.scope? j with
    | none => rfl
    | some o => by_cases ho : s.outer? = some j <;> simp [ho]

theorem slot?_addScope {kind : ScopeKind} (hfree : e.scope? e.nextScope = none)
    (hs : e.scope? i = some s) :
    (e.addScope name kind i).slot? j n = e.slot? j n := by
  rw [slot?, slot?, scope?_addScope hfree hs]
  split
  · subst j
    simp [hfree, Scope.new]
  · cases e.scope? j with
    | none => rfl
    | some o => by_cases hj : j = i <;> simp [hj]

theorem value?_addScope {kind : ScopeKind} (hfree : e.scope? e.nextScope = none)
    (hs : e.scope? i = some s) :
    (e.addScope name kind i).value? j x = e.value? j x := by
  rw [value?, value?, scope?_addScope hfree hs]
  split
  · subst j
    simp [hfree, Scope.new]
  · cases e.scope? j with
    | none => rfl
    | some o => by_cases hj : j = i <;> simp [hj]

theorem slot?_written : (Scoped.written l v e).slot? j n = e.slot? j n := by
  rw [Scoped.written, slot?_modifyScope]
  split <;> rfl

theorem value?_written :
    (Scoped.written l v e).value? j x =
      if l.scope = j ∧ l.slot = x then (e.value? j x).map fun _ => v else e.value? j x := by
  rw [Scoped.written, value?_modifyScope]
  by_cases hj : l.scope = j
  · subst j
    cases hs : e.scope? l.scope with
    | none => simp [value?, hs]
    | some s => by_cases hx : l.slot = x <;> simp [value?, hs, Assoc.get?_modify, hx]
  · simp [hj]

theorem isBound_iff_slot? (h : (Assoc.keys e.scopes).Nodup)
    (hnames : ∀ i s, e.scope? i = some s → (Assoc.keys s.names).Nodup) :
    e.isBound x = true ↔ ∃ i name, e.slot? i name = some x := by
  rw [isBound_iff h]
  constructor
  · rintro ⟨i, s, name, hs, hname⟩
    refine ⟨i, name, ?_⟩
    rw [slot?, hs]
    exact Assoc.get?_of_mem (hnames i s hs) hname
  · rintro ⟨i, name, hslot⟩
    obtain ⟨s, hs, hname⟩ := Option.bind_eq_some_iff.1 hslot
    exact ⟨i, s, name, hs, Assoc.mem_of_get? hname⟩

theorem Linked.isBound_iff_slot? (h : Linked e) :
    e.isBound x = true ↔ ∃ i name, e.slot? i name = some x :=
  Environment.isBound_iff_slot? h.scopes_nodup fun i s hs => (h.fits i s hs).names_nodup

/-! ## Looking names up -/

theorem Linked.ends_lookup_some (h : Linked e) (i? : Option Int) (hi : i?.getD e.current = i)
    (hx : e.slot? i name = some x) (hj : e.Holds j x) :
    Ends (Scoped.lookup name i?) e (fun l? u => l? = some ⟨j, x, [], none⟩ ∧ u = e)
      fun _ _ => False := by
  obtain ⟨s, hs, hname⟩ := Option.bind_eq_some_iff.1 hx
  simp [Scoped.ends_lookup, hi, hs, hname, (h.owner_iff x j).2 hj]

theorem IsOpen.ends_lookup_none (h : e.IsOpen i) (i? : Option Int) (hi : i?.getD e.current = i)
    (hx : e.slot? i name = none) :
    Ends (Scoped.lookup name i?) e (fun l? u => l? = none ∧ u = e) fun _ _ => False := by
  obtain ⟨s, hs, -⟩ := h
  have hname : Assoc.get? name s.names = none := by simpa [slot?, hs] using hx
  simp [Scoped.ends_lookup, hi, hs, hname]

theorem Linked.ends_declare_some {i? : Option Int} (h : Linked e) (hi : i?.getD e.current = i)
    (hx : e.slot? i name = some x) (hj : e.Holds j x) :
    Ends (Scoped.declare name i?) e (fun l u => l = ⟨j, x, [], none⟩ ∧ u = e)
      fun _ _ => False := by
  obtain ⟨s, hs, hname⟩ := Option.bind_eq_some_iff.1 hx
  simp [Scoped.ends_declare, hi, hs, hname, (h.owner_iff x j).2 hj]

theorem IsOpen.ends_declare_none {i? : Option Int} (h : e.IsOpen i) (hi : i?.getD e.current = i)
    (hx : e.slot? i name = none) :
    Ends (Scoped.declare name i?) e
      (fun l u => l = ⟨i, e.nextSlot, [], none⟩ ∧ u = Scoped.declared i name e)
      fun _ _ => False := by
  obtain ⟨s, hs, -⟩ := h
  have hname : Assoc.get? name s.names = none := by simpa [slot?, hs] using hx
  simp [Scoped.ends_declare, hi, hs, hname]

/-! ## Nothing to sweep -/

theorem Linked.sweepScope_kept (h : Linked e) (hk : e.Kept i)
    (hr : ∀ s, e.scope? i = some s → s.released = true) : e.sweepScope i = e := by
  cases hs : e.scope? i with
  | none => simp [sweepScope, hs]
  | some s =>
    obtain ⟨hne, hbound⟩ := hk s hs (hr s hs)
    have hunused : e.unused s = [] := by
      rw [unused, List.filter_eq_nil_iff]
      exact fun x hx => by simp [hbound x hx]
    have hused : e.usedCells s = s.cells := by
      refine List.filter_eq_self.2 fun c hc => ?_
      exact hbound c.1 (Assoc.mem_keys_of_mem hc)
    rw [sweepScope_eq h hs, hused, if_neg hne, hunused]
    rfl

theorem Linked.foldl_sweepScope_kept (h : Linked e) {indices : List Int}
    (hk : ∀ i ∈ indices, e.Kept i ∧ ∀ s, e.scope? i = some s → s.released = true) :
    indices.foldl sweepScope e = e := by
  induction indices with
  | nil => rfl
  | cons i rest ih =>
    obtain ⟨⟨hi, hr⟩, hrest⟩ := List.forall_mem_cons.1 hk
    rw [List.foldl_cons, h.sweepScope_kept hi hr, ih hrest]

theorem Linked.mem_released (h : Linked e) (hi : i ∈ (e.scopes.filter (·.2.released)).map (·.1)) :
    ∀ s, e.scope? i = some s → s.released = true := by
  obtain ⟨⟨k, t⟩, ht, rfl⟩ := List.mem_map.1 hi
  obtain ⟨hmem, hr⟩ := List.mem_filter.1 ht
  intro s hs
  have hs' := (mem_scopes_iff h.scopes_nodup).1 hmem
  obtain rfl : t = s := by simpa [hs] using hs'.symm
  exact hr

theorem Consistent.sweep_eq (h : Consistent e) : e.sweep = e :=
  h.foldl_sweepScope_kept fun i hi => ⟨h.kept i, h.toLinked.mem_released hi⟩

end Environment

end PhpInterpreter
