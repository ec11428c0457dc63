import PhpInterpreter.Proofs.Scope.Survival

/-!
Cells without a name. Unsetting or rebinding the last name of a cell drops the cell, but a name can
also go with its scope, when the scope is released or swept: then the cell of another scope may stay
although nothing stands for it any more. The main result is that cells are stranded in no other way,
and for good.
-/

namespace PhpInterpreter

namespace Action

/-- A name is only bound to what another name stands for at that moment. -/
def Sourced (e : Environment) : Action → Prop
  | bind _ l _ => ∃ i source, e.Names i source l
  | _ => True

theorem Sourced.owned {e : Environment} {a : Action} (h : a.Sourced e) : a.Owned e := by
  cases a with
  | bind name l i? =>
    obtain ⟨i, source, s, -, -, ho, hpath, hchar⟩ := h
    exact ⟨hpath, hchar, l.scope, ho⟩
  | _ => trivial

/-- The action takes away the last names of a slot and leaves its cell: each of the names goes with
its scope, which is released or leaves the table. -/
structure Strands (e : Environment) (slot : Int) (a : Action) : Prop where
  named : e.isBound slot = true
  unnamed : (a.apply e).isBound slot = false
  held : ∃ o, (a.apply e).Holds o slot
  scopes : ∀ i name, e.slot? i name = some slot →
    a = .release i ∨ (a.apply e).scope? i = none

end Action

namespace Environment

variable {e e' e₁ : Environment} {i j slot x : Int} {s : Scope} {name n : String} {l : Location}
  {released : Int → Prop}

theorem Indexed.isBound_iff (h : Indexed e) :
    e.isBound x = true ↔ ∃ i name, e.slot? i name = some x :=
  isBound_iff_slot? h.scopes_nodup h.names_nodup

/-- What an operation does to cells and names: cells are new or were there, new ones have a name, no
slot without a name gets one, and the slot of each name keeps a name, or loses its cell, or the name
goes with its scope. -/
structure Sheds (released : Int → Prop) (e e' : Environment) : Prop where
  next : e.nextSlot ≤ e'.nextSlot
  held : ∀ i x, e'.Holds i x → e.Holds i x ∨ e.nextSlot ≤ x ∧ e'.isBound x = true
  bound : ∀ x, e'.isBound x = true → e.isBound x = true ∨ e.nextSlot ≤ x
  names : ∀ i name x, e.slot? i name = some x →
    e'.isBound x = true ∨ (∀ o, ¬ e'.Holds o x) ∨ released i ∨ e'.scope? i = none

theorem Sheds.refl (e : Environment) : Sheds released e e :=
  ⟨Int.le_refl _, fun _ _ hx => .inl hx, fun _ hx => .inl hx,
    fun _ _ _ hx => .inl (isBound_of_slot? hx)⟩

theorem Sheds.weaken (h : Sheds (fun _ => False) e e') : Sheds released e e' :=
  ⟨h.next, h.held, h.bound, fun i name x hx =>
    (h.names i name x hx).imp_right (.imp_right (.imp_left False.elim))⟩

/-- Names and cells are as they were. -/
structure Same (e e' : Environment) : Prop where
  next : e'.nextSlot = e.nextSlot
  slot? : ∀ i n, e'.slot? i n = e.slot? i n
  held : ∀ i x, e'.Holds i x → e.Holds i x

theorem Same.refl (e : Environment) : Same e e := ⟨rfl, fun _ _ => rfl, fun _ _ hx => hx⟩

theorem Same.trans {e₂ : Environment} (h : Same e e') (h' : Same e' e₂) : Same e e₂ :=
  ⟨h'.next.trans h.next, fun i n => (h'.slot? i n).trans (h.slot? i n),
    fun i x hx => h.held i x (h'.held i x hx)⟩

theorem Same.sheds (hsame : Same e e') (h : Indexed e) (h' : Indexed e') : Sheds released e e' := by
  have hbound : ∀ x, e'.isBound x = true ↔ e.isBound x = true := fun x => by
    rw [h'.isBound_iff, h.isBound_iff]
    simp only [hsame.slot?]
  exact ⟨Int.le_of_eq hsame.next.symm, fun i x hx => .inl (hsame.held i x hx),
    fun x hx => .inl ((hbound x).1 hx), fun i n x hx => .inl ((hbound x).2 (isBound_of_slot? hx))⟩

theorem same_modifyScope {f : Scope → Scope} (hnames : ∀ s, (f s).names = s.names)
    (hkeys : ∀ s, Assoc.keys (f s).cells = Assoc.keys s.cells) : Same e (e.modifyScope i f) := by
  refine ⟨rfl, fun j n => ?_, fun j x => (holds_modifyScope fun s _ => hkeys s).1⟩
  rw [slot?_modifyScope]
  split
  · subst j
    simp only [hnames]
    rfl
  · rfl

/-! ## Operations -/

theorem Indexed.sheds_declared (h : Indexed e) (hs : e.scope? i = some s)
    (hfree : Assoc.get? name s.names = none) : Sheds released e (Scoped.declared i name e) := by
  have h' : Indexed (Scoped.declared i name e) := h.declared hs
  have hown : (Scoped.declared i name e).slot? i name = some e.nextSlot := by
    rw [slot?_declared hs, if_pos ⟨rfl, rfl⟩]
  refine ⟨Int.le_add_one (Int.le_refl _), fun j x hx => ?_, fun x hx => ?_, fun j n x hx => .inl ?_⟩
  · obtain ⟨v, hv⟩ := holds_iff.1 hx
    rw [value?_declared hs] at hv
    split at hv
    · rename_i hnew
      obtain ⟨-, rfl⟩ := hnew
      exact .inr ⟨Int.le_refl _, isBound_of_slot? hown⟩
    · exact .inl (holds_iff.2 ⟨v, hv⟩)
  · obtain ⟨j, n, hn⟩ := h'.isBound_iff.1 hx
    rw [slot?_declared hs] at hn
    split at hn
    · exact .inr (Int.le_of_eq (Option.some.inj hn))
    · exact .inl (isBound_of_slot? hn)
  · have hother : ¬ (i = j ∧ name = n) := by
      rintro ⟨rfl, rfl⟩
      simp [slot?, hs, hfree] at hx
    have hstays : (Scoped.declared i name e).slot? j n = some x := by
      rw [slot?_declared hs, if_neg hother, hx]
    exact isBound_of_slot? hstays

theorem Indexed.same_create (h : Indexed e) (name kind : String) (outer? : Option Int) :
    Ends (Scoped.create name kind outer?) e (fun _ e' => Same e e') fun _ e' => Same e e' := by
  unfold Scoped.create
  split
  · exact .refl e
  · rename_i k _
    simp only [PhpInterpreter.ends_bind, Scoped.ends_orCurrent, Scoped.ends_get, ends_modifyGet]
    refine ⟨fun o ho => ?_, fun _ => .refl e⟩
    change Same e (e.addScope name k (outer?.getD e.current))
    have hfree := h.scope?_nextScope
    refine ⟨rfl, fun i n => slot?_addScope hfree ho, fun i x hx => ?_⟩
    rw [holds_iff, value?_addScope hfree ho] at hx
    exact holds_iff.2 hx

/-- A sweep takes names away with their scopes only. -/
theorem Trims.slot? (h : Trims e e') :
    e'.slot? i name = some x → e.slot? i name = some x := by
  intro hx
  obtain ⟨t, ht, hname⟩ := Option.bind_eq_some_iff.1 hx
  obtain ⟨s, hs, -, hnames⟩ := h.scopes i t ht
  simpa [Environment.slot?, hs, hnames] using hname

theorem Trims.slot?_or (h : Trims e e') (hx : e.slot? i name = some x) :
    e'.slot? i name = some x ∨ e'.scope? i = none := by
  cases ht : e'.scope? i with
  | none => exact .inr rfl
  | some t =>
    obtain ⟨s, hs, -, hnames⟩ := h.scopes i t ht
    refine .inl ?_
    simpa [Environment.slot?, hs, ht, hnames] using hx

/-- An unbound name either leaves other names of the slot, or the slot goes and a sweep follows. -/
theorem Indexed.unbound_cases (h : Indexed e) (i : Int) (name : String) (slot : Int) :
    (e.eraseName i name).isBound slot = true ∧
        Scoped.unbound i name slot e = e.eraseName i name ∨
      Trims (e.eraseName i name) (Scoped.unbound i name slot e) ∧
        ∀ o, ¬ (Scoped.unbound i name slot e).Holds o slot := by
  have herase : Indexed (e.eraseName i name) := h.eraseName
  simp only [Scoped.unbound]
  split
  · rename_i hb
    exact .inl ⟨hb, rfl⟩
  · rename_i hb
    refine .inr ?_
    split
    · rename_i o ho
      have hheld := (herase.owner_iff slot o).1 ho
      have hdrop := herase.trims_dropCell hheld (by simpa using hb)
      have hsweep := hdrop.indexed.trims_sweep
      refine ⟨hdrop.trans hsweep, fun k hk => ?_⟩
      exact ((herase.holds_dropCell hheld).1 (hsweep.held k slot hk)).2 rfl
    · rename_i ho
      have hsweep := herase.trims_sweep
      refine ⟨hsweep, fun k hk => ?_⟩
      simp [(herase.owner_iff slot k).2 (hsweep.held k slot hk)] at ho

theorem Indexed.slot?_erased (h : Indexed e) :
    (e.eraseName i name).slot? j n = if i = j ∧ name = n then none else e.slot? j n :=
  slot?_eraseName_of fun s hs => h.names_nodup i s hs

theorem Indexed.slot?_unbound (h : Indexed e) :
    (Scoped.unbound i name slot e).slot? i name = none := by
  have hnone : (e.eraseName i name).slot? i name = none := by
    rw [h.slot?_erased, if_pos ⟨rfl, rfl⟩]
  rcases h.unbound_cases i name slot with ⟨-, heq⟩ | ⟨htrims, -⟩
  · rw [heq, hnone]
  · cases hx : (Scoped.unbound i name slot e).slot? i name with
    | none => rfl
    | some x => simp [htrims.slot? hx] at hnone

theorem Indexed.sheds_unbound (h : Indexed e) (hname : e.slot? i name = some slot) :
    Sheds released e (Scoped.unbound i name slot e) := by
  have herase : Indexed (e.eraseName i name) := h.eraseName
  have hheld : ∀ {j x}, (e.eraseName i name).Holds j x → e.Holds j x := by
    intro j x hx
    rw [holds_iff, value?_eraseName] at hx
    exact holds_iff.2 hx
  have hslot : ∀ {j n x}, (e.eraseName i name).slot? j n = some x → e.slot? j n = some x := by
    intro j n x hx
    rw [h.slot?_erased] at hx
    split at hx
    · cases hx
    · exact hx
  -- A name of the scope stays, unless it is the one that is unbound.
  have hstays : ∀ {j n x}, e.slot? j n = some x →
      x = slot ∨ (e.eraseName i name).slot? j n = some x := by
    intro j n x hx
    by_cases hsame : i = j ∧ name = n
    · obtain ⟨rfl, rfl⟩ := hsame
      exact .inl (Option.some.inj (hx.symm.trans hname))
    · exact .inr (by rw [h.slot?_erased, if_neg hsame, hx])
  rcases h.unbound_cases i name slot with ⟨hb, heq⟩ | ⟨htrims, hgone⟩
  · rw [heq]
    refine ⟨Int.le_refl _, fun j x hx => .inl (hheld hx), fun x hx => .inl ?_, fun j n x hx => ?_⟩
    · obtain ⟨j, n, hn⟩ := herase.isBound_iff.1 hx
      exact isBound_of_slot? (hslot hn)
    · rcases hstays hx with rfl | hx
      · exact .inl hb
      · exact .inl (isBound_of_slot? hx)
  · refine ⟨htrims.spares.next, fun j x hx => .inl (hheld (htrims.held j x hx)),
      fun x hx => .inl ?_, fun j n x hx => ?_⟩
    · obtain ⟨j, n, hn⟩ := htrims.indexed.isBound_iff.1 hx
      exact isBound_of_slot? (hslot (htrims.slot? hn))
    · rcases hstays hx with rfl | hx
      · exact .inr (.inl hgone)
      · exact (htrims.slot?_or hx).imp isBound_of_slot? fun hnone => .inr (.inr hnone)

theorem Indexed.sheds_unset (h : Indexed e) (name : String) (i? : Option Int) :
    Ends (Scoped.unset name i?) e
      (fun _ e' => Indexed e' ∧ Sheds released e e' ∧ e'.slot? (i?.getD e.current) name = none)
      fun _ e' => Indexed e' ∧ Sheds released e e' := by
  rw [Scoped.ends_unset]
  refine ⟨fun _ => ⟨h, .refl e⟩, fun s hs => ⟨fun hfree => ⟨h, .refl e, ?_⟩, fun slot hname => ?_⟩⟩
  · simpa [slot?, hs] using hfree
  · refine ⟨(h.unbound slot).1, h.sheds_unbound ?_, h.slot?_unbound⟩
    simpa [slot?, hs] using hname

/-- A free name may get a slot that had a name before. -/
theorem Sheds.setName (h : Sheds released e e₁) (h₁ : Indexed e₁) (hs : e₁.scope? i = some s)
    (hfree : e₁.slot? i name = none) (hlt : slot < e₁.nextSlot) (hbound : e.isBound slot = true) :
    Sheds released e (e₁.setName i name slot) := by
  have hset : Indexed (e₁.setName i name slot) := h₁.setName hlt
  -- The name was free, so the other names stand.
  have hstays : ∀ {x}, e₁.isBound x = true → (e₁.setName i name slot).isBound x = true := by
    intro x hx
    obtain ⟨j, n, hn⟩ := h₁.isBound_iff.1 hx
    have hother : ¬ (i = j ∧ name = n) := by
      rintro ⟨rfl, rfl⟩
      simp [hfree] at hn
    have hn' : (e₁.setName i name slot).slot? j n = some x := by
      rw [slot?_setName hs, if_neg hother, hn]
    exact isBound_of_slot? hn'
  have hheld : ∀ {j x}, (e₁.setName i name slot).Holds j x → e₁.Holds j x := by
    intro j x hx
    rw [holds_iff, value?_setName] at hx
    exact holds_iff.2 hx
  refine ⟨h.next, fun j x hx => ?_, fun x hx => ?_, fun j n x hx => ?_⟩
  · exact (h.held j x (hheld hx)).imp_right fun hnew => ⟨hnew.1, hstays hnew.2⟩
  · obtain ⟨j, n, hn⟩ := hset.isBound_iff.1 hx
    rw [slot?_setName hs] at hn
    split at hn
    · exact .inl (Option.some.inj hn ▸ hbound)
    · exact h.bound x (isBound_of_slot? hn)
  · refine (h.names j n x hx).imp hstays (.imp (fun hgone o ho => ?_) (.imp_right ?_))
    · exact hgone o (hheld ho)
    · intro hnone
      have hj : i ≠ j := by
        rintro rfl
        simp [hnone] at hs
      rw [Environment.setName, scope?_modifyScope, if_neg hj, hnone]

/-- Binding a name to a slot that has one. The old slot of the name is treated like an unset one. -/
theorem Indexed.sheds_bind (h : Indexed e) (hl : e.isBound l.slot = true) (name : String)
    (i? : Option Int) :
    Ends (Scoped.bind name l i?) e (fun _ e' => Sheds released e e')
      fun _ e' => Sheds released e e' := by
  obtain ⟨k, source, hsource⟩ := h.isBound_iff.1 hl
  unfold Scoped.bind
  split
  · exact .refl e
  · simp only [PhpInterpreter.ends_bind, Scoped.ends_orCurrent, Scoped.ends_get]
    refine ⟨fun s hs => ?_, fun _ => .refl e⟩
    split
    · exact .refl e
    · simp only [PhpInterpreter.ends_bind, Scoped.ends_get, ends_modify]
      refine (h.sheds_unset name (some (i?.getD e.current))).mono ?_ fun _ _ hu => hu.2
      rintro - e₁ ⟨hindexed, hsheds, hfree⟩
      have hlt : l.slot < e₁.nextSlot := Int.lt_of_lt_of_le (h.slot?_lt hsource) hsheds.next
      exact ⟨fun t ht => hsheds.setName hindexed ht hfree hlt hl, fun _ => hsheds⟩

/-- A new global slot is kept by the global scope, which has both its cell and its name. -/
theorem Indexed.sheds_bindGlobal (h : Indexed e) (name : String) :
    Ends (Scoped.bindGlobal name) e (fun _ e' => Sheds (fun _ => False) e e')
      fun _ e' => Sheds (fun _ => False) e e' := by
  have hbind : ∀ {e₁ : Environment} {l : Location}, Indexed e₁ → e₁.isBound l.slot = true →
      (∀ e', Sheds (fun _ => False) e₁ e' → Sheds (fun _ => False) e e') →
      Ends (do if (← getThe Environment).current ≠ globalIndex then Scoped.bind name l none
               return l) e₁
        (fun _ e' => Sheds (fun _ => False) e e') fun _ e' => Sheds (fun _ => False) e e' := by
    intro e₁ l h₁ hl htrans
    simp only [PhpInterpreter.ends_bind, ends_getThe]
    split
    · simp only [PhpInterpreter.ends_bind, ends_pure]
      exact (h₁.sheds_bind hl name none).mono (fun _ => htrans) fun _ => htrans
    · exact htrans e₁ (.refl e₁)
  rw [Scoped.bindGlobal, PhpInterpreter.ends_bind, Scoped.ends_declare, Option.getD_some]
  refine ⟨fun _ => .refl e, fun s hs => ⟨fun hfree => ?_, fun slot hname => ?_⟩⟩
  · have h₁ : Indexed (Scoped.declared globalIndex name e) := h.declared hs
    have hown : (Scoped.declared globalIndex name e).slot? globalIndex name = some e.nextSlot := by
      rw [slot?_declared hs, if_pos ⟨rfl, rfl⟩]
    have hheld : (Scoped.declared globalIndex name e).Holds globalIndex e.nextSlot := by
      rw [holds_iff, value?_declared hs, if_pos ⟨rfl, rfl⟩]
      exact ⟨_, rfl⟩
    have hdeclared : Sheds (fun _ => False) e (Scoped.declared globalIndex name e) :=
      h.sheds_declared hs hfree
    refine hbind h₁ (isBound_of_slot? hown) fun e' hsheds => ?_
    refine ⟨Int.le_trans hdeclared.next hsheds.next, fun j x hx => ?_, fun x hx => ?_,
      fun j n x hx => hsheds.names j n x ?_⟩
    · rcases hsheds.held j x hx with hx' | ⟨hge, hb⟩
      · refine (hdeclared.held j x hx').imp_right fun hnew => ⟨hnew.1, ?_⟩
        have hlast : x < e.nextSlot + 1 := h₁.slot_lt x j hx'
        obtain rfl : e.nextSlot = x := Int.le_antisymm hnew.1 (Int.le_of_lt_add_one hlast)
        obtain rfl : j = globalIndex := h₁.holds_unique hx' hheld
        obtain ⟨t, ht, -⟩ := id hx
        rcases hsheds.names _ _ _ hown with hb | hgone | hf | hnone
        · exact hb
        · exact absurd hx (hgone _)
        · exact hf.elim
        · simp [hnone] at ht
      · exact .inr ⟨Int.le_trans hdeclared.next hge, hb⟩
    · rcases hsheds.bound x hx with hb | hge
      · exact hdeclared.bound x hb
      · exact .inr (Int.le_trans hdeclared.next hge)
    · rw [slot?_declared hs, if_neg, hx]
      rintro ⟨rfl, rfl⟩
      simp [slot?, hs, hfree] at hx
  · refine ⟨fun _ => .refl e, fun o _ => ?_⟩
    have hslot : e.slot? globalIndex name = some slot := by simpa [slot?, hs] using hname
    exact hbind h (isBound_of_slot? hslot) fun _ hsheds => hsheds

theorem Indexed.sheds_release (h : Indexed e) (hi : released i) :
    Ends (Scoped.release i) e (fun _ e' => Sheds released e e')
      fun _ e' => Sheds released e e' := by
  simp only [Scoped.release, PhpInterpreter.ends_bind, ends_getThe]
  split
  · exact .refl e
  · split
    · exact .refl e
    · simp only [PhpInterpreter.ends_bind, Scoped.ends_get, ends_modify]
      refine ⟨fun s hs => ?_, fun _ => .refl e⟩
      have hindexed : Indexed (e.modifyScope i fun s => { s with names := [], released := true }) :=
        h.modifyScope (fun _ _ => rfl) (fun _ _ => List.nodup_nil)
          fun _ _ _ hp => absurd hp List.not_mem_nil
      have hsweep := hindexed.trims_sweep
      refine ⟨hsweep.spares.next, fun j x hx => .inl ?_, fun x hx => .inl ?_, fun j n x hx => ?_⟩
      · exact (holds_modifyScope (f := fun s => { s with names := [], released := true })
          fun _ _ => rfl).1 (hsweep.held j x hx)
      · obtain ⟨j, n, hn⟩ := hsweep.indexed.isBound_iff.1 hx
        have hn := hsweep.slot? hn
        rw [slot?_modifyScope] at hn
        split at hn
        · simp at hn
        · exact isBound_of_slot? hn
      · by_cases hj : j = i
        · exact .inr (.inr (.inl (hj ▸ hi)))
        · have hx : (e.modifyScope i fun s => { s with names := [], released := true }).slot? j n =
              some x := by
            rw [slot?_modifyScope, if_neg (Ne.symm hj), hx]
          exact (hsweep.slot?_or hx).imp isBound_of_slot? fun hnone => .inr (.inr hnone)

/-! ## Courses -/

/-- One action. -/
theorem Indexed.sheds (h : Indexed e) {a : Action} (ha : a.Sourced e) :
    Sheds (fun i => a = .release i) e (a.apply e) := by
  have h' := (h.apply a).1 ha.owned
  have hsame : ∀ {α : Type} (act : Scoped α), (act.run.run e).2 = a.apply e →
      Ends act e (fun _ e' => Same e e') (fun _ e' => Same e e') →
      Sheds (fun i => a = .release i) e (a.apply e) := by
    intro α act heq hact
    exact (heq ▸ hact.state).sheds h h'
  cases a with
  | create n kind outer? => exact hsame _ rfl (h.same_create n kind outer?)
  | enter i =>
    refine hsame (Scoped.enter i) rfl ?_
    simp only [Scoped.enter, PhpInterpreter.ends_bind, Scoped.ends_get, ends_modify]
    exact ⟨fun _ _ => ⟨rfl, fun _ _ => rfl, fun _ _ hx => hx⟩, fun _ => .refl e⟩
  | leave =>
    refine hsame Scoped.leave rfl ?_
    simp only [Scoped.leave, PhpInterpreter.ends_bind, ends_getThe]
    split
    · exact .refl e
    · exact ⟨rfl, fun _ _ => rfl, fun _ _ hx => hx⟩
  | release i =>
    have hrelease : Ends (Scoped.release i) e
        (fun _ e' => Sheds (fun j => Action.release i = .release j) e e')
        fun _ e' => Sheds (fun j => Action.release i = .release j) e e' := h.sheds_release rfl
    exact hrelease.state
  | declare n i? =>
    have hdeclare : Ends (Scoped.declare n i?) e
        (fun _ e' => Sheds (fun i => Action.declare n i? = .release i) e e')
        fun _ e' => Sheds (fun i => Action.declare n i? = .release i) e e' := by
      rw [Scoped.ends_declare]
      refine ⟨fun _ => .refl e, fun s hs => ⟨fun hfree => h.sheds_declared hs hfree, fun _ _ => ?_⟩⟩
      exact ⟨fun _ => .refl e, fun _ _ => .refl e⟩
    exact hdeclare.state
  | unset n i? => exact ((h.sheds_unset n i?).mono (fun _ _ hs => hs.2.1) fun _ _ hs => hs.2).state
  | bindGlobal n =>
    exact ((h.sheds_bindGlobal n).mono (fun _ _ hs => hs.weaken) fun _ _ hs => hs.weaken).state
  | bind n l i? =>
    obtain ⟨i, source, s, hs, hname, -⟩ := ha
    have hl : e.slot? i source = some l.slot := by simpa [slot?, hs] using hname
    exact (h.sheds_bind (isBound_of_slot? hl) n i?).state
  | store l v =>
    refine hsame (Scoped.store l v) rfl ?_
    rw [Scoped.ends_store]
    refine ⟨fun _ => .refl e, fun _ => ⟨fun _ => .refl e, fun s _ => ⟨fun _ => .refl e, ?_⟩⟩⟩
    exact fun _ _ => ⟨fun _ => .refl e, fun _ _ =>
      same_modifyScope (fun _ => rfl) fun _ => Assoc.keys_modify ..⟩
  | newObject c i? =>
    refine hsame (Scoped.newObject c i?) rfl ?_
    simp only [Scoped.newObject, PhpInterpreter.ends_bind, Scoped.ends_orCurrent, ends_modifyGet,
      Scoped.ends_get, ends_modify, ends_pure]
    have hhandle : Same e { e with nextHandle := e.nextHandle + 1 } :=
      ⟨rfl, fun _ _ => rfl, fun _ _ hx => hx⟩
    refine ⟨fun _ _ => hhandle.trans (same_modifyScope ?_ ?_), fun _ => hhandle⟩
    · exact fun _ => rfl
    · exact fun _ => rfl

/-- Actions lead from one environment to another. -/
inductive Course : Environment → List Action → Environment → Prop
  | nil (e : Environment) : Course e [] e
  | cons {e e' : Environment} {a : Action} {actions : List Action} :
      a.Sourced e → Course (a.apply e) actions e' → Course e (a :: actions) e'

variable {actions : List Action}

theorem Course.indexed (h : Course e actions e') (he : Indexed e) : Indexed e' := by
  induction h with
  | nil e => exact he
  | cons ha _ ih => exact ih ((he.apply _).1 ha.owned)

theorem Course.rest {before after : List Action} (h : Course e before e₁)
    (hall : Course e (before ++ after) e') : Course e₁ after e' := by
  induction h with
  | nil e => exact hall
  | cons _ _ ih =>
    cases hall with
    | cons _ hrest => exact ih hrest

/-- A cell at the end was there before, unless its slot is a new one. -/
theorem Course.held (h : Course e actions e') (he : Indexed e) (hx : e'.Holds i x)
    (hlt : x < e.nextSlot) : e.Holds i x := by
  induction h with
  | nil e => exact hx
  | cons ha _ ih =>
    have hsheds := he.sheds ha
    have hmid := ih ((he.apply _).1 ha.owned) hx (Int.lt_of_lt_of_le hlt hsheds.next)
    rcases hsheds.held i x hmid with hx | ⟨hge, -⟩
    · exact hx
    · exact absurd hlt (Int.not_lt.2 hge)

/-- A slot without a name gets none again. -/
theorem Course.unbound (h : Course e actions e') (he : Indexed e) (hlt : x < e.nextSlot)
    (hb : e.isBound x = false) : e'.isBound x = false := by
  induction h with
  | nil e => exact hb
  | cons ha _ ih =>
    have hsheds := he.sheds ha
    refine ih ((he.apply _).1 ha.owned) (Int.lt_of_lt_of_le hlt hsheds.next) ?_
    rw [Bool.eq_false_iff]
    intro hx
    rcases hsheds.bound x hx with hx | hge
    · simp [hb] at hx
    · exact absurd hlt (Int.not_lt.2 hge)

/-- A cell that loses its name on the way and stays is stranded by one of the actions. -/
theorem Course.strands (h : Course e actions e') (he : Indexed e) (hx : e'.Holds i x)
    (hb : e'.isBound x = false) (hstart : e.isBound x = true ∨ e.nextSlot ≤ x) :
    ∃ before a after e₁, actions = before ++ a :: after ∧ Course e before e₁ ∧ a.Strands e₁ x := by
  induction h with
  | nil e =>
    rcases hstart with hnamed | hge
    · simp [hb] at hnamed
    · exact absurd (he.slot_lt x i hx) (Int.not_lt.2 hge)
  | @cons e e' a actions ha hrest ih =>
    have hsheds := he.sheds ha
    have hnext := (he.apply a).1 ha.owned
    have hlater := fun hmid => ih hnext hx hb hmid
    have hadd : (∃ before b after e₁, actions = before ++ b :: after ∧
        Course (a.apply e) before e₁ ∧ b.Strands e₁ x) → ∃ before b after e₁,
        a :: actions = before ++ b :: after ∧ Course e before e₁ ∧ b.Strands e₁ x := by
      rintro ⟨before, b, after, e₁, rfl, hbefore, hstrands⟩
      exact ⟨a :: before, b, after, e₁, rfl, .cons ha hbefore, hstrands⟩
    by_cases hge : (a.apply e).nextSlot ≤ x
    · exact hadd (hlater (.inr hge))
    · have hmid := hrest.held hnext hx (Int.not_le.1 hge)
      cases hnamed : (a.apply e).isBound x with
      | true => exact hadd (hlater (.inl hnamed))
      | false =>
        refine ⟨[], a, actions, e, rfl, .nil e, ?_, hnamed, ⟨i, hmid⟩, fun j n hn => ?_⟩
        · refine hstart.resolve_right fun hnew => ?_
          rcases hsheds.held i x hmid with hold | ⟨-, hx⟩
          · exact absurd (he.slot_lt x i hold) (Int.not_lt.2 hnew)
          · simp [hnamed] at hx
        · rcases hsheds.names j n x hn with hx | hgone | hrel
          · simp [hnamed] at hx
          · exact absurd hmid (hgone i)
          · exact hrel

/-- After any actions from the fresh environment on, a cell has no name if and only if some action
before took its last names away with their scopes. -/
theorem unbound_iff_stranded (h : Course init actions e) (hheld : e.Holds i slot) :
    e.isBound slot = false ↔ ∃ before a after e₁, actions = before ++ a :: after ∧
      Course init before e₁ ∧ a.Strands e₁ slot := by
  constructor
  · intro hb
    refine h.strands indexed_init hheld hb (.inr (Int.not_lt.1 fun hlt => ?_))
    obtain ⟨o, ho⟩ : ∃ o, Assoc.get? slot init.owners = some o :=
      ⟨i, (indexed_init.owner_iff slot i).2 (h.held indexed_init hheld hlt)⟩
    cases ho
  · rintro ⟨before, a, after, e₁, rfl, hbefore, hstrands⟩
    have h₁ := hbefore.indexed indexed_init
    obtain ⟨ha, hafter⟩ : a.Sourced e₁ ∧ Course (a.apply e₁) after e := by
      cases hbefore.rest h with
      | cons ha hafter => exact ⟨ha, hafter⟩
    have hnext := (h₁.apply a).1 ha.owned
    obtain ⟨o, ho⟩ := hstrands.held
    exact hafter.unbound hnext (hnext.slot_lt slot o ho) hstrands.unnamed

/-- A global variable whose only name is in a function's scope is left behind when that scope is
released. -/
theorem unbound_released :
    ∃ e, Course init [.create "f" "function" none, .declare "x" none,
        .bind "y" ⟨0, 1, [], none⟩ (some 1), .unset "x" none, .release 1] e ∧ e.Holds 0 1 ∧
      e.isBound 1 = false ∧ ∃ before a after e₁, [.create "f" "function" none, .declare "x" none,
        .bind "y" ⟨0, 1, [], none⟩ (some 1), .unset "x" none, .release 1] = before ++ a :: after ∧
        Course init before e₁ ∧ a.Strands e₁ 1 := by
  have run : ∃ e, Course init [.create "f" "function" none, .declare "x" none,
      .bind "y" ⟨0, 1, [], none⟩ (some 1), .unset "x" none, .release 1] e ∧ e.Holds 0 1 ∧
      e.isBound 1 = false := by
    refine ⟨_, .cons trivial (.cons trivial (.cons ⟨0, "x", _, rfl, rfl, rfl, rfl, rfl⟩
      (.cons trivial (.cons trivial (.nil _))))), ⟨_, rfl, by decide⟩, by decide⟩
  obtain ⟨e, hcourse, hheld, hb⟩ := run
  exact ⟨e, hcourse, hheld, hb, (unbound_iff_stranded hcourse hheld).1 hb⟩

end Environment

end PhpInterpreter
