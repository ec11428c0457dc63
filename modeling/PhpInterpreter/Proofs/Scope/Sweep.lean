import PhpInterpreter.Proofs.Scope.Linked

/-!
Sweeping: the cells of released scopes that no name is bound to go, and with its last cell the
scope. Whatever was linked is consistent after it.
-/

namespace PhpInterpreter.Environment

variable {e e' : Environment} {i j slot : Int} {s t : Scope}

/-- Drops the cells of some slots of the scope `i`. -/
def dropCells (i : Int) (slots : List Int) (e : Environment) : Environment :=
  slots.foldl (fun e slot => e.dropCell i slot) e

theorem scope?_dropCells (i j : Int) (slots : List Int) (e : Environment) :
    (e.dropCells i slots).scope? j =
      if i = j then (e.scope? j).map fun s =>
        { s with cells := slots.foldl (fun l slot => Assoc.erase slot l) s.cells }
      else e.scope? j := by
  induction slots generalizing e with
  | nil => simp [dropCells]
  | cons x rest ih =>
    rw [dropCells, List.foldl_cons, ← dropCells, ih]
    by_cases hij : i = j <;> simp [hij, Function.comp_def]

@[simp] theorem isBound_dropCells (i x : Int) (slots : List Int) (e : Environment) :
    (e.dropCells i slots).isBound x = e.isBound x := by
  induction slots generalizing e with
  | nil => rfl
  | cons y rest ih => rw [dropCells, List.foldl_cons, ← dropCells, ih, isBound_dropCell]

theorem Linked.dropCells {slots : List Int} (h : Linked e) (hnodup : slots.Nodup)
    (hslots : ∀ x ∈ slots, e.Holds i x ∧ e.isBound x = false) : Linked (e.dropCells i slots) := by
  induction slots generalizing e with
  | nil => exact h
  | cons x rest ih =>
    obtain ⟨hx, hrest⟩ := List.nodup_cons.1 hnodup
    obtain ⟨hheld, hfree⟩ := hslots x List.mem_cons_self
    rw [Environment.dropCells, List.foldl_cons, ← Environment.dropCells]
    refine ih (h.dropCell hheld hfree) hrest ?_
    intro y hy
    obtain ⟨hy', hfree'⟩ := hslots y (List.mem_cons_of_mem x hy)
    have hne : y ≠ x := fun heq => hx (heq ▸ hy)
    exact ⟨(holds_dropCell h hheld).2 ⟨hy', hne⟩, by simpa using hfree'⟩

/-- The slots of a scope's cells without a name. -/
def unused (e : Environment) (s : Scope) : List Int :=
  (Assoc.keys s.cells).filter fun slot => !e.isBound slot

/-- The cells of a scope that have a name. -/
def usedCells (e : Environment) (s : Scope) : List (Int × Value) :=
  s.cells.filter fun c => e.isBound c.1

theorem scope?_dropCells_unused (h : Linked e) (hs : e.scope? i = some s) :
    (e.dropCells i (e.unused s)).scope? i = some { s with cells := e.usedCells s } := by
  rw [scope?_dropCells, if_pos rfl, hs, Option.map_some, unused,
    Assoc.foldl_erase_filter _ (h.fits i s hs).cells_nodup]
  simp [usedCells]

theorem Linked.dropCells_unused (h : Linked e) (hs : e.scope? i = some s) :
    Linked (e.dropCells i (e.unused s)) := by
  refine h.dropCells ((h.fits i s hs).cells_nodup.filter _) ?_
  intro x hx
  obtain ⟨hx, hfree⟩ := List.mem_filter.1 hx
  exact ⟨⟨s, hs, hx⟩, by simpa using hfree⟩

theorem sweepScope_eq (h : Linked e) (hs : e.scope? i = some s) :
    e.sweepScope i = if e.usedCells s = [] then
      (e.dropCells i (e.unused s)).dropScope i { s with cells := [] }
      else e.dropCells i (e.unused s) := by
  have hcells := scope?_dropCells_unused h hs
  rw [dropCells, unused] at hcells ⊢
  unfold sweepScope
  simp only [hs, hcells]
  cases e.usedCells s <;> rfl

/-- The scope without its list of enclosed scopes. -/
def stripped (s : Scope) : Scope := { s with enclosed := [] }

/-- What sweeping one released scope does: names stay, the scope's own cells are tidied, and the
other scopes stay but for the lists of enclosed scopes. -/
structure Sweeps (e : Environment) (i : Int) (e' : Environment) : Prop where
  linked : Linked e'
  kept : e'.Kept i
  bound : ∀ x, e'.isBound x = e.isBound x
  released : ∀ t, e'.scope? i = some t → t.released = true
  others : ∀ j, j ≠ i → (e'.scope? j).map stripped = (e.scope? j).map stripped
  rest : e' = { e with scopes := e'.scopes, owners := e'.owners }

theorem dropCells_rest (i : Int) (slots : List Int) (e : Environment) :
    e.dropCells i slots =
      { e with
        scopes := (e.dropCells i slots).scopes
        owners := (e.dropCells i slots).owners } := by
  induction slots generalizing e with
  | nil => rfl
  | cons x rest ih => exact ih (e.dropCell i x)

theorem sweeps_sweepScope (h : Linked e) (hr : ∀ s, e.scope? i = some s → s.released = true) :
    e.Sweeps i (e.sweepScope i) := by
  cases hs : e.scope? i with
  | none =>
    have heq : e.sweepScope i = e := by simp [sweepScope, hs]
    rw [heq]
    exact ⟨h, fun s hs' => by simp [hs] at hs', fun _ => rfl, hr, fun _ _ => rfl, rfl⟩
  | some s =>
    have hl := h.dropCells_unused hs
    have hcells := scope?_dropCells_unused h hs
    have hothers : ∀ j, j ≠ i → (e.dropCells i (e.unused s)).scope? j = e.scope? j := by
      intro j hj
      rw [scope?_dropCells, if_neg (Ne.symm hj)]
    have hrest := dropCells_rest i (e.unused s) e
    rw [sweepScope_eq h hs]
    -- The scope goes with its last cell, else the cells with names stay.
    split
    · rename_i hempty
      rw [hempty] at hcells
      have hnone : ((e.dropCells i (e.unused s)).dropScope i { s with cells := [] }).scope? i =
          none := by
        rw [scope?_dropScope hl.scopes_nodup, if_pos rfl]
      refine ⟨hl.dropScope hcells rfl (hr s hs), ?_, ?_, ?_, ?_, ?_⟩
      · intro t ht
        simp [hnone] at ht
      · intro x
        rw [isBound_dropScope hl hcells (hr s hs), isBound_dropCells]
      · intro t ht
        simp [hnone] at ht
      · intro j hj
        rw [scope?_dropScope hl.scopes_nodup, if_neg hj, hothers j hj, Option.map_map]
        congr 1
        funext o
        simp only [Function.comp_apply]
        split <;> rfl
      · rw [dropScope_eq, hrest]
    · rename_i hsome
      refine ⟨hl, ?_, fun x => isBound_dropCells i x _ e, ?_, ?_, hrest⟩
      · intro t ht _
        obtain rfl : { s with cells := e.usedCells s } = t := by simpa [hcells] using ht
        refine ⟨hsome, ?_⟩
        intro x hx
        obtain ⟨c, hc, rfl⟩ := List.mem_map.1 hx
        simpa using (List.mem_filter.1 hc).2
      · intro t ht
        obtain rfl : { s with cells := e.usedCells s } = t := by simpa [hcells] using ht
        exact hr s hs
      · intro j hj
        rw [hothers j hj]

/-- Sweeping some released scopes, where all others are tidy already. -/
theorem Linked.foldl_sweepScope {indices : List Int} (h : Linked e)
    (hr : ∀ i ∈ indices, ∀ s, e.scope? i = some s → s.released = true)
    (hk : ∀ i, i ∉ indices → e.Kept i) :
    Consistent (indices.foldl sweepScope e) ∧
      (∀ j, j ∉ indices →
        ((indices.foldl sweepScope e).scope? j).map stripped = (e.scope? j).map stripped) ∧
      indices.foldl sweepScope e = { e with
        scopes := (indices.foldl sweepScope e).scopes
        owners := (indices.foldl sweepScope e).owners } := by
  induction indices generalizing e with
  | nil => exact ⟨⟨h, fun i => hk i List.not_mem_nil⟩, fun _ _ => rfl, rfl⟩
  | cons i rest ih =>
    have hsweep := sweeps_sweepScope h (hr i List.mem_cons_self)
    -- What another scope was before the sweep can be read off what it is after.
    have hback : ∀ j, j ≠ i → ∀ t, (e.sweepScope i).scope? j = some t →
        ∃ s, e.scope? j = some s ∧ stripped s = stripped t := by
      intro j hj t ht
      have hmap := hsweep.others j hj
      rw [ht, Option.map_some] at hmap
      simpa using hmap.symm
    have hreleased : ∀ j ∈ rest, ∀ t, (e.sweepScope i).scope? j = some t → t.released = true := by
      intro j hj t ht
      by_cases hij : j = i
      · subst j
        exact hsweep.released t ht
      · obtain ⟨s, hs, heq⟩ := hback j hij t ht
        rw [← hr j (List.mem_cons_of_mem i hj) s hs]
        exact (congrArg (·.released) heq).symm
    have htidy : ∀ j, j ∉ rest → (e.sweepScope i).Kept j := by
      intro j hj
      by_cases hij : j = i
      · subst j
        exact hsweep.kept
      · intro t ht hrel
        obtain ⟨s, hs, heq⟩ := hback j hij t ht
        have hrel' : s.released = true := (congrArg (·.released) heq).trans hrel
        have hcells : s.cells = t.cells := by simpa [stripped] using congrArg (·.cells) heq
        have hkept := hk j (by simp [hij, hj]) s hs hrel'
        rw [hcells] at hkept
        exact ⟨hkept.1, fun x hx => (hsweep.bound x).trans (hkept.2 x hx)⟩
    obtain ⟨hcons, hothers, hrest⟩ := ih hsweep.linked hreleased htidy
    refine ⟨hcons, ?_, ?_⟩
    · intro j hj
      rw [List.mem_cons, not_or] at hj
      exact (hothers j hj.2).trans (hsweep.others j hj.1)
    · rw [List.foldl_cons, hrest, hsweep.rest]

theorem Linked.sweep_spec (h : Linked e) :
    Consistent e.sweep ∧
      (∀ j, (∀ s, e.scope? j = some s → s.released = false) →
        (e.sweep.scope? j).map stripped = (e.scope? j).map stripped) ∧
      e.sweep = { e with scopes := e.sweep.scopes, owners := e.sweep.owners } := by
  have hmem : ∀ i, i ∈ (e.scopes.filter (·.2.released)).map (·.1) ↔
      ∃ s, e.scope? i = some s ∧ s.released = true := by
    intro i
    simp only [List.mem_map, List.mem_filter, Prod.exists, exists_and_right, exists_eq_right,
      mem_scopes_iff h.scopes_nodup]
  have hreleased : ∀ i ∈ (e.scopes.filter (·.2.released)).map (·.1),
      ∀ s, e.scope? i = some s → s.released = true := by
    intro i hi s hs
    obtain ⟨t, ht, hrel⟩ := (hmem i).1 hi
    obtain rfl : s = t := by simpa [hs] using ht
    exact hrel
  obtain ⟨hcons, hothers, hrest⟩ := h.foldl_sweepScope hreleased
    fun i hi s hs hrel => absurd ((hmem i).2 ⟨s, hs, hrel⟩) hi
  refine ⟨hcons, fun j hj => hothers j ?_, hrest⟩
  intro hin
  obtain ⟨s, hs, hrel⟩ := (hmem j).1 hin
  simp [hj s hs] at hrel

/-! ## What is left -/

/-- Every scope of `e'` is one of `e`, with its names and some of its cells. -/
def Shrinks (e e' : Environment) : Prop :=
  ∀ j t, (j, t) ∈ e'.scopes →
    ∃ s, (j, s) ∈ e.scopes ∧ t.names = s.names ∧ ∀ c ∈ t.cells, c ∈ s.cells

theorem Shrinks.refl (e : Environment) : Shrinks e e := fun _ t ht => ⟨t, ht, rfl, fun _ hc => hc⟩

theorem Shrinks.trans {e₁ e₂ e₃ : Environment} (h : Shrinks e₁ e₂) (h' : Shrinks e₂ e₃) :
    Shrinks e₁ e₃ := by
  intro j t ht
  obtain ⟨s, hs, hn, hc⟩ := h' j t ht
  obtain ⟨r, hr, hn', hc'⟩ := h j s hs
  exact ⟨r, hr, hn.trans hn', fun c hct => hc' c (hc c hct)⟩

theorem shrinks_dropCell (i slot : Int) (e : Environment) : Shrinks e (e.dropCell i slot) := by
  intro j t ht
  rcases Assoc.mem_modify ht with ht | ⟨s, hs, heq⟩
  · exact Shrinks.refl e j t ht
  · obtain ⟨rfl, rfl⟩ := Prod.mk.inj heq
    exact ⟨s, Assoc.mem_of_get? hs, rfl, fun c hc => Assoc.mem_of_mem_erase hc⟩

theorem shrinks_dropScope (i : Int) (s : Scope) (e : Environment) :
    Shrinks e (e.dropScope i s) := by
  intro j t ht
  unfold dropScope at ht
  cases hout : s.outer? with
  | none =>
    rw [hout] at ht
    exact Shrinks.refl e j t (Assoc.mem_of_mem_erase ht)
  | some o =>
    rw [hout] at ht
    rcases Assoc.mem_modify ht with ht | ⟨r, hr, heq⟩
    · exact Shrinks.refl e j t (Assoc.mem_of_mem_erase ht)
    · obtain ⟨rfl, rfl⟩ := Prod.mk.inj heq
      exact ⟨r, Assoc.mem_of_mem_erase (Assoc.mem_of_get? hr), rfl, fun c hc => hc⟩

theorem shrinks_foldl {α : Type} {f : Environment → α → Environment}
    (hf : ∀ e a, Shrinks e (f e a)) (l : List α) (e : Environment) : Shrinks e (l.foldl f e) := by
  induction l generalizing e with
  | nil => exact Shrinks.refl e
  | cons a rest ih => exact (hf e a).trans (ih _)

theorem shrinks_sweepScope (e : Environment) (i : Int) : Shrinks e (e.sweepScope i) := by
  unfold sweepScope
  split
  · exact Shrinks.refl e
  · rename_i s hs
    have hcells := shrinks_foldl (fun e slot => shrinks_dropCell i slot e)
      ((Assoc.keys s.cells).filter fun slot => !e.isBound slot) e
    dsimp only
    split
    · exact hcells.trans (shrinks_dropScope _ _ _)
    · exact hcells

theorem shrinks_sweep (e : Environment) : Shrinks e e.sweep := shrinks_foldl shrinks_sweepScope _ e

end PhpInterpreter.Environment
