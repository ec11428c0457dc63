import PhpInterpreter.Proofs.Scope.Binding

/-!
Scopes that are opened, worked in and closed again. No name of an outer scope ever stands for a cell
of the new scope, and the new scope reaches cells outside it through global names only; so closing
it leaves the outer scopes as they were, but for the global names that were listed and their cells.
-/

namespace PhpInterpreter

namespace Environment

variable {e e' : Environment} {i j slot x : Int} {s : Scope} {name n : String} {v : Value}
  {l : Location}

/-! ## Inside a new scope -/

variable {P : String → Prop} {e₀ : Environment}

/-- The slot has its cell in the scope `i`, or is that of a global name among the given ones. -/
def Reaches (P : String → Prop) (e : Environment) (i slot : Int) : Prop :=
  e.Holds i slot ∨ ∃ g, P g ∧ e.slot? globalIndex g = some slot

/-- The environment is one with a scope opened in `e₀`, the current one, where global names among
the given ones may have been declared. -/
structure Inside (P : String → Prop) (e₀ e : Environment) : Prop where
  consistent : Consistent e
  current : e.current = e₀.nextScope
  entered : e.entered = e₀.current :: e₀.entered
  table : Assoc.keys e.scopes = Assoc.keys e₀.scopes ++ [e₀.nextScope]
  slots : e₀.nextSlot ≤ e.nextSlot
  names : ∀ {i name slot}, e₀.slot? i name = some slot → e.slot? i name = some slot
  added : ∀ {i name slot}, i ≠ e₀.nextScope → e.slot? i name = some slot →
    e₀.slot? i name = some slot ∨ i = globalIndex ∧ P name ∧ e₀.nextSlot ≤ slot
  values : ∀ {i slot v}, e₀.value? i slot = some v → ∃ w, e.value? i slot = some w ∧
    (w = v ∨ ∃ g, P g ∧ e₀.slot? globalIndex g = some slot)
  own : ∀ {name slot}, e.slot? e₀.nextScope name = some slot → e.Reaches P e₀.nextScope slot
  apart : ∀ {i name slot}, i ≠ e₀.nextScope → e.slot? i name = some slot →
    ¬ e.Holds e₀.nextScope slot

theorem slot?_nextScope (h : Linked e) : e.slot? e.nextScope name = none := by
  rw [slot?, scope?_nextScope h]
  rfl

theorem globalIndex_ne_nextScope (h : Linked e) : globalIndex ≠ e.nextScope := by
  obtain ⟨s, hs, -⟩ := h.global_open
  intro heq
  rw [heq, scope?_nextScope h] at hs
  cases hs

theorem Linked.holds_of_slot? (h : Linked e) (hslot : e.slot? i name = some slot) :
    ∃ j, e.Holds j slot := by
  obtain ⟨s, hs, hname⟩ := Option.bind_eq_some_iff.1 hslot
  exact (h.fits i s hs).named name slot (Assoc.mem_of_get? hname)

/-- The environment without a name of the scope `i`. -/
def cleared (i : Int) (name : String) (e : Environment) : Environment :=
  (e.slot? i name).elim e fun x => Scoped.unbound i name x e

/-- The environment with a name of the scope `i` bound to a slot. -/
def rebound (i : Int) (name : String) (slot : Int) (e : Environment) : Environment :=
  if e.slot? i name = some slot then e else (e.cleared i name).setName i name slot

theorem IsOpen.ends_unset (h : e.IsOpen i) (name : String) (i? : Option Int)
    (hi : i?.getD e.current = i) :
    Ends (Scoped.unset name i?) e (fun _ u => u = e.cleared i name) fun _ _ => False := by
  obtain ⟨s, hs, -⟩ := h
  rw [Scoped.ends_unset, hi]
  refine ⟨fun hnone => by simp [hs] at hnone, fun t ht => ⟨fun hname => ?_, fun x hname => ?_⟩⟩
  · simp [cleared, slot?, ht, hname]
  · simp [cleared, slot?, ht, hname]

theorem Linked.eraseName (h : Linked e) : Linked (e.eraseName i name) :=
  h.modifyScope fun _ ht => keeps_eraseName h ht

namespace Inside

theorem scope?_own (h : Inside P e₀ e) :
    ∃ s, e.scope? e₀.nextScope = some s ∧ s.released = false := by
  rw [← h.current]
  exact h.consistent.current_open

/-- A change of the new scope only. -/
theorem change (h : Inside P e₀ e) (hc : Consistent e') (hcurrent : e'.current = e.current)
    (hentered : e'.entered = e.entered)
    (htable : Assoc.keys e'.scopes = Assoc.keys e.scopes) (hslots : e.nextSlot ≤ e'.nextSlot)
    (hnames : ∀ {i name}, i ≠ e₀.nextScope → e'.slot? i name = e.slot? i name)
    (hvalues : ∀ {i x}, i ≠ e₀.nextScope → e'.value? i x = e.value? i x)
    (hheld : ∀ {x}, e'.Holds e₀.nextScope x → e.Holds e₀.nextScope x ∨ e.nextSlot ≤ x)
    (hown : ∀ {name x}, e'.slot? e₀.nextScope name = some x →
      e'.Holds e₀.nextScope x ∨ ∃ g, P g ∧ e.slot? globalIndex g = some x) (h₀ : Linked e₀) :
    Inside P e₀ e' := by
  have hglobal := globalIndex_ne_nextScope h₀
  have hold : ∀ {i name slot}, e₀.slot? i name = some slot → i ≠ e₀.nextScope := by
    rintro i name slot hslot rfl
    rw [slot?_nextScope h₀] at hslot
    cases hslot
  refine ⟨hc, hcurrent.trans h.current, hentered.trans h.entered, htable.trans h.table,
    Int.le_trans h.slots hslots, ?_, ?_, ?_, ?_, ?_⟩
  · intro i name slot hslot
    rw [hnames (hold hslot)]
    exact h.names hslot
  · intro i name slot hi hslot
    rw [hnames hi] at hslot
    exact h.added hi hslot
  · intro i slot v hv
    have hi : i ≠ e₀.nextScope := by
      rintro rfl
      rw [value?, scope?_nextScope h₀] at hv
      cases hv
    rw [hvalues hi]
    exact h.values hv
  · intro name slot hslot
    refine (hown hslot).imp_right ?_
    rintro ⟨g, hg, hbound⟩
    exact ⟨g, hg, (hnames hglobal).trans hbound⟩
  · intro i name slot hi hslot hheld'
    rw [hnames hi] at hslot
    rcases hheld hheld' with hheld' | hfresh
    · exact h.apart hi hslot hheld'
    -- A slot with a name outside is older than a fresh one.
    · obtain ⟨j, hj⟩ := h.consistent.toLinked.holds_of_slot? hslot
      have := h.consistent.slot_lt slot j hj
      omega

/-! ## Names of the new scope -/

theorem declared (h : Inside P e₀ e) (h₀ : Linked e₀) (hfree : e.slot? e₀.nextScope name = none) :
    Inside P e₀ (Scoped.declared e₀.nextScope name e) := by
  obtain ⟨s, hs, ho⟩ := h.scope?_own
  have hname : Assoc.get? name s.names = none := by simpa [slot?, hs] using hfree
  refine h.change (Scoped.steps_declared h.consistent hs ho hname).consistent rfl rfl ?_
    (Int.le_add_one (Int.le_refl _)) ?_ ?_ ?_ ?_ h₀
  · simp [Scoped.declared, setName, allocate, modifyScope]
  · intro i n hi
    rw [slot?_declared hs, if_neg (by simp [Ne.symm hi])]
  · intro i x hi
    rw [value?_declared hs, if_neg (by simp [Ne.symm hi])]
  · intro x hx
    rw [holds_iff, value?_declared hs] at hx
    split at hx
    · rename_i hsame
      exact .inr (Int.le_of_eq hsame.2)
    · exact .inl (holds_iff.2 hx)
  · intro n x hx
    rw [slot?_declared hs] at hx
    split at hx
    · refine .inl (holds_iff.2 ⟨.null, ?_⟩)
      rw [value?_declared hs, if_pos ⟨rfl, Option.some.inj hx⟩]
    · refine (h.own hx).imp_left fun hheld => ?_
      obtain ⟨v, hv⟩ := holds_iff.1 hheld
      refine holds_iff.2 ?_
      rw [value?_declared hs]
      split
      · exact ⟨_, rfl⟩
      · exact ⟨v, hv⟩

theorem setName (h : Inside P e₀ e) (h₀ : Linked e₀) (hfree : e.slot? e₀.nextScope name = none)
    (hreach : e.Reaches P e₀.nextScope slot) : Inside P e₀ (e.setName e₀.nextScope name slot) := by
  obtain ⟨s, hs, ho⟩ := h.scope?_own
  have hname : Assoc.get? name s.names = none := by simpa [slot?, hs] using hfree
  have hheld : ∃ j, e.Holds j slot := by
    rcases hreach with hheld | ⟨g, -, hg⟩
    · exact ⟨_, hheld⟩
    · exact h.consistent.toLinked.holds_of_slot? hg
  have hsame : ∀ {i x}, (e.setName e₀.nextScope name slot).Holds i x ↔ e.Holds i x := by
    intro i x
    rw [holds_iff, holds_iff, value?_setName]
  refine h.change (h.consistent.setName hs ho hname hheld) rfl rfl ?_ (Int.le_refl _) ?_ ?_ ?_ ?_ h₀
  · simp [Environment.setName, modifyScope]
  · intro i n hi
    rw [slot?_setName hs, if_neg (by simp [Ne.symm hi])]
  · intro i x _
    rw [value?_setName]
  · exact fun hx => .inl (hsame.1 hx)
  · intro n x hx
    rw [slot?_setName hs] at hx
    split at hx
    · obtain rfl := Option.some.inj hx
      exact hreach.imp_left hsame.2
    · exact (h.own hx).imp_left hsame.2

/-- Without a name the slot's cell goes, and it was one of the new scope; nothing is to be swept. -/
theorem unbound_eq (h : Inside P e₀ e) (h₀ : Linked e₀)
    (hname : e.slot? e₀.nextScope name = some slot)
    (hfree : (e.eraseName e₀.nextScope name).isBound slot = false) :
    e.Holds e₀.nextScope slot ∧ Scoped.unbound e₀.nextScope name slot e =
      (e.eraseName e₀.nextScope name).dropCell e₀.nextScope slot := by
  have hl : Linked (e.eraseName e₀.nextScope name) := h.consistent.toLinked.eraseName
  have hheld : e.Holds e₀.nextScope slot := by
    refine (h.own hname).resolve_right ?_
    rintro ⟨g, -, hg⟩
    have hbound := hl.isBound_iff_slot?.2 ⟨globalIndex, g, by
      rw [slot?_eraseName h.consistent.toLinked,
        if_neg (by simp [(globalIndex_ne_nextScope h₀).symm])]
      exact hg⟩
    simp [hfree] at hbound
  have hheld' : (e.eraseName e₀.nextScope name).Holds e₀.nextScope slot := by
    rw [holds_iff, value?_eraseName]
    exact holds_iff.1 hheld
  have hdrop := hl.dropCell hheld' hfree
  obtain ⟨s, hs, ho⟩ := h.scope?_own
  have hkept : ∀ i, ((e.eraseName e₀.nextScope name).dropCell e₀.nextScope slot).Kept i := by
    intro i t ht hr
    rw [scope?_dropCell, eraseName, scope?_modifyScope] at ht
    split at ht
    · rename_i hi
      subst hi
      simp only [hs, Option.map_some] at ht
      obtain rfl := Option.some.inj ht
      simp [ho] at hr
    · rename_i hi
      obtain ⟨hne, hbound⟩ := h.consistent.kept i t ht hr
      refine ⟨hne, fun x hx => ?_⟩
      rw [isBound_dropCell]
      have hname' : Assoc.get? name s.names = some slot := by simpa [slot?, hs] using hname
      refine isBound_eraseName h.consistent.toLinked hs hname' ?_ (hbound x hx)
      rintro rfl
      exact hi (hheld.unique h.consistent.toLinked ⟨t, ht, hx⟩)
  refine ⟨hheld, ?_⟩
  have howner : Assoc.get? slot (e.eraseName e₀.nextScope name).owners = some e₀.nextScope :=
    (hl.owner_iff slot _).2 hheld'
  simp only [Scoped.unbound, hfree, Bool.false_eq_true, if_false, howner]
  exact Consistent.sweep_eq ⟨hdrop, hkept⟩

theorem unbound (h : Inside P e₀ e) (h₀ : Linked e₀)
    (hname : e.slot? e₀.nextScope name = some slot) :
    Inside P e₀ (Scoped.unbound e₀.nextScope name slot e) ∧
      ∀ i n, (Scoped.unbound e₀.nextScope name slot e).slot? i n =
        if e₀.nextScope = i ∧ name = n then none else e.slot? i n := by
  obtain ⟨s, hs, -⟩ := h.scope?_own
  have hl := h.consistent.toLinked
  have hname' : Assoc.get? name s.names = some slot := by simpa [slot?, hs] using hname
  have hc := (Scoped.face_unbound h.consistent hs hname').1.consistent
  -- Cells outside the new scope stay, and so do its own cells that still have a name.
  have hspec : ∀ e', Consistent e' → e'.current = e.current → e'.entered = e.entered →
      Assoc.keys e'.scopes = Assoc.keys e.scopes → e'.nextSlot = e.nextSlot →
      (∀ i n, e'.slot? i n = (e.eraseName e₀.nextScope name).slot? i n) →
      (∀ i x, i ≠ e₀.nextScope ∨ (e.eraseName e₀.nextScope name).isBound x = true →
        e'.value? i x = e.value? i x) →
      (∀ x, e'.Holds e₀.nextScope x → e.Holds e₀.nextScope x) → Inside P e₀ e' := by
    intro e' hc hcurrent hentered htable hnext hslot hvalue hheld
    refine h.change hc hcurrent hentered htable (Int.le_of_eq hnext.symm) ?_
      (fun hi => hvalue _ _ (.inl hi)) (fun hx => .inl (hheld _ hx)) ?_ h₀
    · intro i n hi
      rw [hslot, slot?_eraseName hl, if_neg (by simp [Ne.symm hi])]
    · intro n x hx
      rw [hslot] at hx
      have hbound : (e.eraseName e₀.nextScope name).isBound x = true :=
        hl.eraseName.isBound_iff_slot?.2 ⟨_, n, hx⟩
      rw [slot?_eraseName hl] at hx
      split at hx
      · cases hx
      · refine (h.own hx).imp_left fun hheld => ?_
        rw [holds_iff, hvalue _ _ (.inr hbound)]
        exact holds_iff.1 hheld
  cases hb : (e.eraseName e₀.nextScope name).isBound slot with
  | true =>
    have heq : Scoped.unbound e₀.nextScope name slot e = e.eraseName e₀.nextScope name := by
      simp [Scoped.unbound, hb]
    rw [heq] at hc ⊢
    refine ⟨hspec _ hc rfl rfl ?_ rfl (fun _ _ => rfl) (fun _ _ _ => value?_eraseName) ?_, ?_⟩
    · simp [eraseName, modifyScope]
    · intro x hx
      rw [holds_iff, value?_eraseName] at hx
      exact holds_iff.2 hx
    · exact fun i n => slot?_eraseName hl
  | false =>
    obtain ⟨hheld, heq⟩ := h.unbound_eq h₀ hname hb
    rw [heq] at hc ⊢
    refine ⟨hspec _ hc rfl rfl ?_ rfl (fun _ _ => slot?_dropCell) ?_ ?_, ?_⟩
    · simp [dropCell, eraseName, modifyScope]
    · intro i x hx
      rw [value?_dropCell, value?_eraseName]
      refine hx.imp_right ?_
      rintro hbound rfl
      simp [hb] at hbound
    · intro x hx
      by_cases hsame : x = slot
      · exact hsame ▸ hheld
      · rw [holds_iff, value?_dropCell (.inr hsame), value?_eraseName] at hx
        exact holds_iff.2 hx
    · intro i n
      rw [slot?_dropCell, slot?_eraseName hl]

/-- The slot has a name left if it has another one in the new scope, or is that of a global name
among the given ones. -/
theorem isBound_eraseName_iff (h : Inside P e₀ e) (h₀ : Linked e₀)
    (hname : e.slot? e₀.nextScope name = some slot) :
    (e.eraseName e₀.nextScope name).isBound slot = true ↔
      (∃ n, n ≠ name ∧ e.slot? e₀.nextScope n = some slot) ∨
        ∃ g, P g ∧ e.slot? globalIndex g = some slot := by
  have hl := h.consistent.toLinked
  rw [hl.eraseName.isBound_iff_slot?]
  simp only [slot?_eraseName hl]
  constructor
  · rintro ⟨i, n, hslot⟩
    split at hslot
    · cases hslot
    · rename_i hother
      by_cases hi : i = e₀.nextScope
      · subst hi
        exact .inl ⟨n, fun hn => hother ⟨rfl, hn.symm⟩, hslot⟩
      · exact .inr ((h.own hname).resolve_left (h.apart hi hslot))
  · rintro (⟨n, hn, hslot⟩ | ⟨g, -, hslot⟩)
    · exact ⟨_, n, by rw [if_neg (by simp [hn.symm]), hslot]⟩
    · refine ⟨globalIndex, g, ?_⟩
      rw [if_neg (by simp [(globalIndex_ne_nextScope h₀).symm]), hslot]

/-- Only the cell goes that lost its last name. -/
theorem value?_unbound (h : Inside P e₀ e) (h₀ : Linked e₀)
    (hname : e.slot? e₀.nextScope name = some slot) :
    (Scoped.unbound e₀.nextScope name slot e).value? i x =
      if (e.eraseName e₀.nextScope name).isBound slot = false ∧ e₀.nextScope = i ∧ slot = x
      then none else e.value? i x := by
  cases hb : (e.eraseName e₀.nextScope name).isBound slot with
  | true => simp [Scoped.unbound, hb, value?_eraseName]
  | false =>
    have hl := h.consistent.toLinked
    rw [(h.unbound_eq h₀ hname hb).2]
    split
    · rename_i hsame
      obtain ⟨-, rfl, rfl⟩ := hsame
      exact value?_dropCell_self hl.eraseName
    · rename_i hother
      rw [value?_dropCell, value?_eraseName]
      by_contra hcon
      push Not at hcon
      exact hother ⟨rfl, hcon.1.symm, hcon.2.symm⟩

theorem nextSlot_unbound (h : Inside P e₀ e) (h₀ : Linked e₀)
    (hname : e.slot? e₀.nextScope name = some slot) :
    (Scoped.unbound e₀.nextScope name slot e).nextSlot = e.nextSlot := by
  cases hb : (e.eraseName e₀.nextScope name).isBound slot with
  | true =>
    rw [Scoped.unbound, if_pos hb]
    rfl
  | false =>
    rw [(h.unbound_eq h₀ hname hb).2]
    rfl

theorem ends_declare (h : Inside P e₀ e) (h₀ : Linked e₀) (name : String) :
    Ends (Scoped.declare name none) e
      (fun l e' => Inside P e₀ e' ∧ ∃ source, e'.slot? e₀.nextScope source = some l.slot)
      fun _ e' => Inside P e₀ e' := by
  rw [Scoped.ends_declare, Option.getD_none, h.current]
  refine ⟨fun _ => h, fun s hs => ⟨fun hname => ?_, fun slot hname => ⟨fun _ => h, fun o _ => ?_⟩⟩⟩
  · refine ⟨h.declared h₀ (by simpa [slot?, hs] using hname), name, ?_⟩
    rw [slot?_declared hs, if_pos ⟨rfl, rfl⟩]
  · exact ⟨h, name, by simpa [slot?, hs] using hname⟩

theorem cleared (h : Inside P e₀ e) (h₀ : Linked e₀) (name : String) :
    Inside P e₀ (e.cleared e₀.nextScope name) ∧
      ∀ j n, (e.cleared e₀.nextScope name).slot? j n =
        if e₀.nextScope = j ∧ name = n then none else e.slot? j n := by
  cases hx : e.slot? e₀.nextScope name with
  | some x =>
    rw [Environment.cleared, hx]
    exact h.unbound h₀ hx
  | none =>
    rw [Environment.cleared, hx]
    refine ⟨h, fun j n => ?_⟩
    split
    · rename_i hsame
      obtain ⟨rfl, rfl⟩ := hsame
      exact hx
    · rfl

theorem ends_unset (h : Inside P e₀ e) (h₀ : Linked e₀) (i? : Option Int)
    (hi : i?.getD e.current = e₀.nextScope) (name : String) :
    Ends (Scoped.unset name i?) e
      (fun _ e' => Inside P e₀ e' ∧ ∀ i n, e'.slot? i n =
        if e₀.nextScope = i ∧ name = n then none else e.slot? i n)
      fun _ e' => Inside P e₀ e' := by
  refine (IsOpen.ends_unset h.scope?_own name i? hi).mono ?_ fun _ _ hf => hf.elim
  rintro - _ rfl
  exact h.cleared h₀ name

/-- The slot keeps the name it was found by. -/
theorem rebound (h : Inside P e₀ e) (h₀ : Linked e₀) (name : String)
    (hslot : (∃ source, e.slot? e₀.nextScope source = some slot) ∨
      ∃ g, P g ∧ e.slot? globalIndex g = some slot) :
    Inside P e₀ (e.rebound e₀.nextScope name slot) := by
  unfold Environment.rebound
  split
  · exact h
  · rename_i hother
    obtain ⟨h', hslots⟩ := h.cleared h₀ name
    refine h'.setName h₀ (by simp [hslots]) ?_
    rcases hslot with ⟨source, hsource⟩ | ⟨g, hg, hbound⟩
    · have hkept : (e.cleared e₀.nextScope name).slot? e₀.nextScope source = some slot := by
        rw [hslots, if_neg, hsource]
        rintro ⟨-, rfl⟩
        exact hother hsource
      exact h'.own hkept
    · refine .inr ⟨g, hg, ?_⟩
      rw [hslots, if_neg (by simp [(globalIndex_ne_nextScope h₀).symm]), hbound]

theorem ends_bind_eq (h : Inside P e₀ e) (h₀ : Linked e₀) (hpath : l.path = [])
    (hchar : l.char? = none) :
    Ends (Scoped.bind name l none) e (fun _ u => u = e.rebound e₀.nextScope name l.slot)
      fun _ _ => False := by
  obtain ⟨s, hs, -⟩ := h.scope?_own
  have hown : Assoc.get? name s.names = e.slot? e₀.nextScope name := by simp [slot?, hs]
  simp only [Scoped.bind, hpath, hchar, List.isEmpty_nil, Bool.not_true, Option.isSome_none,
    Bool.or_self, Bool.false_eq_true, if_false, PhpInterpreter.ends_bind, Scoped.ends_orCurrent,
    Option.getD_none, h.current, Scoped.ends_get]
  refine ⟨fun t ht => ?_, fun hnone => by simp [hs] at hnone⟩
  obtain rfl : s = t := by simpa [hs] using ht
  rw [Environment.rebound]
  simp only [hown]
  split
  · rfl
  · simp only [PhpInterpreter.ends_bind, Scoped.ends_get, ends_modify]
    refine (IsOpen.ends_unset h.scope?_own name _ rfl).mono ?_ fun _ _ hf => hf
    rintro - _ rfl
    obtain ⟨t, ht, -⟩ := (h.cleared h₀ name).1.scope?_own
    exact ⟨fun _ _ => rfl, fun hnone => by simp [ht] at hnone⟩

theorem ends_bind (h : Inside P e₀ e) (h₀ : Linked e₀) (name : String)
    (hl : (∃ source, e.slot? e₀.nextScope source = some l.slot) ∨
      ∃ g, P g ∧ e.slot? globalIndex g = some l.slot) :
    Ends (Scoped.bind name l none) e (fun _ e' => Inside P e₀ e') fun _ e' => Inside P e₀ e' := by
  by_cases hwhole : l.path = [] ∧ l.char? = none
  · refine (h.ends_bind_eq h₀ hwhole.1 hwhole.2).mono ?_ fun _ _ hf => hf.elim
    rintro - _ rfl
    exact h.rebound h₀ name hl
  · have hpartial : (!l.path.isEmpty || l.char?.isSome) = true := by
      rw [Bool.or_eq_true]
      by_contra hcon
      simp only [not_or, Bool.not_eq_true, Bool.not_eq_false', List.isEmpty_iff,
        Option.isSome_eq_false_iff, Option.isNone_iff_eq_none] at hcon
      exact hwhole hcon
    rw [Scoped.bind, if_pos hpartial]
    exact h

/-! ## Global names and stores -/

theorem declaredGlobal (h : Inside P e₀ e) (h₀ : Linked e₀) (hP : P name)
    (hfree : e.slot? globalIndex name = none) :
    Inside P e₀ (Scoped.declared globalIndex name e) := by
  have hne := globalIndex_ne_nextScope h₀
  obtain ⟨s, hs, ho⟩ := h.consistent.global_open
  have hname : Assoc.get? name s.names = none := by simpa [slot?, hs] using hfree
  have hkeep : ∀ {i n x}, e.slot? i n = some x →
      (Scoped.declared globalIndex name e).slot? i n = some x := by
    intro i n x hx
    rw [slot?_declared hs, if_neg, hx]
    rintro ⟨rfl, rfl⟩
    simp [hfree] at hx
  have hheld : ∀ {x}, (Scoped.declared globalIndex name e).Holds e₀.nextScope x ↔
      e.Holds e₀.nextScope x := by
    intro x
    rw [holds_iff, holds_iff, value?_declared hs, if_neg (by simp [hne])]
  refine ⟨(Scoped.steps_declared h.consistent hs ho hname).consistent, h.current, h.entered, ?_, ?_,
    fun hx => hkeep (h.names hx), ?_, ?_, ?_, ?_⟩
  · rw [← h.table]
    simp [Scoped.declared, Environment.setName, allocate, modifyScope]
  · exact Int.le_trans h.slots (Int.le_add_one (Int.le_refl _))
  · intro i n x hi hx
    rw [slot?_declared hs] at hx
    split at hx
    · rename_i hsame
      obtain ⟨rfl, rfl⟩ := hsame
      obtain rfl := Option.some.inj hx
      exact .inr ⟨rfl, hP, h.slots⟩
    · exact h.added hi hx
  · intro i x v hv
    obtain ⟨w, hw, hor⟩ := h.values hv
    refine ⟨w, ?_, hor⟩
    rw [value?_declared hs, if_neg, hw]
    rintro ⟨rfl, rfl⟩
    have := h.consistent.slot_lt _ _ (holds_iff.2 ⟨w, hw⟩)
    omega
  · intro n x hx
    rw [slot?_declared hs, if_neg (by simp [hne])] at hx
    refine (h.own hx).imp hheld.2 ?_
    rintro ⟨g, hg, hbound⟩
    exact ⟨g, hg, hkeep hbound⟩
  · intro i n x hi hx
    rw [hheld]
    rw [slot?_declared hs] at hx
    split at hx
    · obtain rfl := Option.some.inj hx
      intro hx'
      have := h.consistent.slot_lt _ _ hx'
      omega
    · exact h.apart hi hx

theorem ends_bindGlobal (h : Inside P e₀ e) (h₀ : Linked e₀) (hP : P name) :
    Ends (Scoped.bindGlobal name) e (fun _ e' => Inside P e₀ e') fun _ e' => Inside P e₀ e' := by
  have hbind : ∀ {l : Location} {e'}, Inside P e₀ e' → e'.slot? globalIndex name = some l.slot →
      Ends (do
        if (← getThe Environment).current ≠ globalIndex then Scoped.bind name l none
        return l) e' (fun _ e'' => Inside P e₀ e'') fun _ e'' => Inside P e₀ e'' := by
    intro l e' h' hl
    simp only [PhpInterpreter.ends_bind, ends_getThe]
    split
    · simp only [PhpInterpreter.ends_bind, ends_pure]
      exact h'.ends_bind h₀ name (.inr ⟨name, hP, hl⟩)
    · exact h'
  unfold Scoped.bindGlobal
  rw [PhpInterpreter.ends_bind, Scoped.ends_declare, Option.getD_some]
  refine ⟨fun _ => h, fun s hs => ⟨fun hname => ?_, fun slot hname => ⟨fun _ => h, fun o _ => ?_⟩⟩⟩
  · refine hbind (h.declaredGlobal h₀ hP (by simpa [slot?, hs] using hname)) ?_
    rw [slot?_declared hs, if_pos ⟨rfl, rfl⟩]
  · exact hbind h (by simpa [slot?, hs] using hname)

theorem written (h : Inside P e₀ e) (h₀ : Linked e₀) {source : String}
    (hl : e.slot? e₀.nextScope source = some l.slot) (v : Value) :
    Inside P e₀ (Scoped.written l v e) := by
  have hheld : ∀ {i x}, (Scoped.written l v e).Holds i x ↔ e.Holds i x := by
    intro i x
    rw [holds_iff, holds_iff, value?_written]
    split
    · cases e.value? i x <;> simp
    · rfl
  refine ⟨(Scoped.steps_written h.consistent v).consistent, h.current, h.entered, ?_, h.slots, ?_,
    ?_, ?_, ?_, ?_⟩
  · rw [← h.table]
    simp [Scoped.written, modifyScope]
  · intro i n x hx
    rw [slot?_written]
    exact h.names hx
  · intro i n x hi hx
    rw [slot?_written] at hx
    exact h.added hi hx
  · intro i x u hu
    have hx := h₀.slot_lt x i (holds_iff.2 ⟨u, hu⟩)
    have hi : i ≠ e₀.nextScope := by
      rintro rfl
      rw [value?, scope?_nextScope h₀] at hu
      cases hu
    obtain ⟨w, hw, hor⟩ := h.values hu
    rw [value?_written]
    split
    · rename_i hsame
      obtain ⟨rfl, rfl⟩ := hsame
      refine ⟨v, by rw [hw]; rfl, .inr ?_⟩
      -- The cell is not in the new scope, so it was reached by a global name, and an old one.
      rcases h.own hl with hown | ⟨g, hg, hbound⟩
      · exact absurd ((holds_iff.2 ⟨w, hw⟩).unique h.consistent.toLinked hown) hi
      · rcases h.added (globalIndex_ne_nextScope h₀) hbound with hold | ⟨-, -, hnew⟩
        · exact ⟨g, hg, hold⟩
        · omega
    · exact ⟨w, hw, hor⟩
  · intro n x hx
    rw [slot?_written] at hx
    refine (h.own hx).imp hheld.2 ?_
    rintro ⟨g, hg, hbound⟩
    exact ⟨g, hg, slot?_written.trans hbound⟩
  · intro i n x hi hx
    rw [slot?_written] at hx
    rw [hheld]
    exact h.apart hi hx

theorem ends_store (h : Inside P e₀ e) (h₀ : Linked e₀) (v : Value)
    (hl : ∃ source, e.slot? e₀.nextScope source = some l.slot) :
    Ends (Scoped.store l v) e
      (fun _ e' => Inside P e₀ e' ∧ ∃ source, e'.slot? e₀.nextScope source = some l.slot)
      fun _ e' => Inside P e₀ e' := by
  obtain ⟨source, hsource⟩ := hl
  rw [Scoped.ends_store]
  refine ⟨fun _ => h, fun _ => ⟨fun _ => h, fun _ _ => ⟨fun _ => h, fun _ _ => ⟨fun _ => h, ?_⟩⟩⟩⟩
  exact fun new _ => ⟨h.written h₀ hsource new, source, slot?_written.trans hsource⟩

end Inside

/-! ## Opening and closing -/

/-- What a scope that was opened and closed leaves in an environment: the scopes, names and values
that were there, but for global names among the given ones and the values of those. -/
structure Isolated (P : String → Prop) (e e' : Environment) : Prop where
  current : e'.current = e.current
  entered : e'.entered = e.entered
  table : Assoc.keys e'.scopes = Assoc.keys e.scopes
  names : ∀ i name slot, e.slot? i name = some slot → e'.slot? i name = some slot
  added : ∀ i name slot, e'.slot? i name = some slot →
    e.slot? i name = some slot ∨ i = globalIndex ∧ P name
  values : ∀ i slot v, e.value? i slot = some v → ∃ w, e'.value? i slot = some w ∧
    (w = v ∨ ∃ g, P g ∧ e.slot? globalIndex g = some slot)

/-- The environment with a new scope opened in the current one. -/
def opened (name : String) (kind : ScopeKind) (e : Environment) : Environment :=
  { e.addScope name kind e.current with
    current := e.nextScope
    entered := e.current :: e.entered }

theorem Consistent.slot?_opened {kind : ScopeKind} (h : Consistent e) :
    (e.opened name kind).slot? j n = e.slot? j n := by
  obtain ⟨s, hs, -⟩ := h.current_open
  exact slot?_addScope (scope?_nextScope h.toLinked) hs

theorem Consistent.value?_opened {kind : ScopeKind} (h : Consistent e) :
    (e.opened name kind).value? j x = e.value? j x := by
  obtain ⟨s, hs, -⟩ := h.current_open
  exact value?_addScope (scope?_nextScope h.toLinked) hs

theorem Consistent.inside_opened {kind : ScopeKind} (h : Consistent e) :
    Inside P e (e.opened name kind) := by
  obtain ⟨s, hs, -⟩ := h.current_open
  have hl := h.toLinked
  have hfree := scope?_nextScope hl
  have hadd : Consistent (e.addScope name kind e.current) := h.addScope hs
  have hnew : (e.addScope name kind e.current).scope? e.nextScope =
      some (Scope.new name kind (some e.current)) := by
    rw [scope?_addScope hfree hs, if_pos rfl]
  have hback : ∀ j ∈ e.current :: e.entered, (e.addScope name kind e.current).IsOpen j :=
    List.forall_mem_cons.2 ⟨hadd.current_open, hadd.entered_open⟩
  refine ⟨(hadd.steps_active ⟨_, hnew, rfl⟩ hback).consistent, rfl, rfl, ?_, Int.le_refl _, ?_, ?_,
    ?_, ?_, ?_⟩
  · have hnone := Assoc.get?_eq_none_iff.1 hfree
    simp only [opened, Environment.addScope, Environment.modifyScope, Assoc.keys_modify,
      Assoc.insert_of_notMem _ hnone]
    simp [Assoc.keys]
  · exact fun hx => h.slot?_opened.trans hx
  · exact fun _ hx => .inl (h.slot?_opened.symm.trans hx)
  · exact fun {i x v} hv => ⟨v, h.value?_opened.trans hv, .inl rfl⟩
  · intro n x hx
    rw [h.slot?_opened, slot?_nextScope hl] at hx
    cases hx
  · rintro i n x - - hheld
    rw [holds_iff, h.value?_opened, value?, hfree] at hheld
    simp at hheld

theorem Consistent.ends_openScope_eq {kind : String} {k : ScopeKind} (h : Consistent e)
    (name : String) (hk : ScopeKind.ofLabel? kind = some k) :
    Ends (Scoped.openScope name kind) e (fun i e' => i = e.nextScope ∧ e' = e.opened name k)
      fun _ _ => False := by
  obtain ⟨s, hs, -⟩ := h.current_open
  have hnew : (e.addScope name k e.current).scope? e.nextScope =
      some (Scope.new name k (some e.current)) := by
    rw [scope?_addScope (scope?_nextScope h.toLinked) hs, if_pos rfl]
  have henter : Ends (do Scoped.enter e.nextScope; return e.nextScope)
      (e.addScope name k e.current) (fun i e' => i = e.nextScope ∧ e' = e.opened name k)
      fun _ _ => False := by
    simp only [Scoped.enter, ends_bind, Scoped.ends_get, ends_modify, ends_pure]
    exact ⟨fun _ _ => ⟨trivial, rfl⟩, fun hnone => by simp [hnew] at hnone⟩
  simp only [Scoped.openScope, Scoped.create, hk, ends_bind, Scoped.ends_orCurrent,
    Option.getD_none, Scoped.ends_get, ends_modifyGet]
  refine ⟨fun _ _ => ?_, fun hnone => by simp [hs] at hnone⟩
  rw [ends_bind] at henter
  exact henter

theorem Consistent.ends_openScope {kind : String} {k : ScopeKind} (h : Consistent e) (name : String)
    (hk : ScopeKind.ofLabel? kind = some k) :
    Ends (Scoped.openScope name kind) e (fun i e' => i = e.nextScope ∧ Inside P e e')
      fun _ _ => False := by
  refine (h.ends_openScope_eq name hk).mono ?_ fun _ _ hf => hf
  rintro i _ ⟨rfl, rfl⟩
  exact ⟨rfl, h.inside_opened⟩

/-- The environment left, with the scope `i` released but not swept. -/
def vacated (i current : Int) (entered : List Int) (e : Environment) : Environment :=
  { e with current := current, entered := entered }.modifyScope i
    fun s => { s with names := [], released := true }

theorem slot?_vacated {current : Int} {entered : List Int} :
    (e.vacated i current entered).slot? j n = if i = j then none else e.slot? j n := by
  rw [vacated, slot?_modifyScope]
  split
  · cases hs : scope? { e with current := current, entered := entered } j <;> rfl
  · rfl

theorem value?_vacated {current : Int} {entered : List Int} :
    (e.vacated i current entered).value? j x = e.value? j x := by
  rw [vacated, value?_modifyScope]
  split <;> rfl

theorem keys_dropCells (i : Int) (slots : List Int) (e : Environment) :
    Assoc.keys (e.dropCells i slots).scopes = Assoc.keys e.scopes := by
  induction slots generalizing e with
  | nil => rfl
  | cons x rest ih =>
    rw [dropCells, List.foldl_cons, ← dropCells, ih]
    simp [dropCell, modifyScope]

/-- The other scopes stay when one goes with its cells. -/
theorem scope?_dropped {slots : List Int} (h : Linked e) (hj : j ≠ i) :
    ((e.dropCells i slots).dropScope i s).slot? j n = e.slot? j n ∧
      ((e.dropCells i slots).dropScope i s).value? j x = e.value? j x := by
  have hnodup : (Assoc.keys (e.dropCells i slots).scopes).Nodup := by
    rw [keys_dropCells]
    exact h.scopes_nodup
  simp only [slot?, value?, scope?_dropScope hnodup, if_neg hj, scope?_dropCells,
    if_neg (Ne.symm hj)]
  cases e.scope? j with
  | none => exact ⟨rfl, rfl⟩
  | some o => by_cases ho : s.outer? = some j <;> simp [ho]

/-- The last scope goes if it is released and none of its cells has a name, and the other released
scopes are kept. -/
theorem Linked.sweep_last (h : Linked e) {indices : List Int}
    (hkeys : Assoc.keys e.scopes = indices ++ [i]) (hs : e.scope? i = some s)
    (hr : s.released = true) (hkept : ∀ j, j ≠ i → e.Kept j)
    (hfree : ∀ x ∈ Assoc.keys s.cells, e.isBound x = false) :
    e.sweep = (e.dropCells i (e.unused s)).dropScope i { s with cells := [] } := by
  obtain ⟨before, last, hsplit, hbefore, hlast⟩ := List.map_eq_append_iff.1 hkeys
  obtain ⟨p, rest, rfl, hp, hrest⟩ := List.map_eq_cons_iff.1 hlast
  obtain rfl := List.map_eq_nil_iff.1 hrest
  have hlist : (e.scopes.filter (·.2.released)).map (·.1) =
      (before.filter (·.2.released)).map (·.1) ++ [i] := by
    have hs' : e.scope? p.1 = some p.2 := by
      refine (mem_scopes_iff h.scopes_nodup).1 ?_
      rw [hsplit]
      simp
    rw [hp, hs] at hs'
    obtain rfl := Option.some.inj hs'
    simp [hsplit, hr, hp]
  have hother : ∀ j ∈ (before.filter (·.2.released)).map (·.1),
      e.Kept j ∧ ∀ s, e.scope? j = some s → s.released = true := by
    intro j hj
    refine ⟨hkept j ?_, h.mem_released (by rw [hlist]; exact List.mem_append_left _ hj)⟩
    rintro rfl
    have hnodup := h.scopes_nodup
    rw [hkeys] at hnodup
    refine (List.nodup_append.1 hnodup).2.2 j ?_ j (List.mem_singleton.2 rfl) rfl
    rw [← hbefore]
    obtain ⟨q, hq, hqj⟩ := List.mem_map.1 hj
    exact List.mem_map.2 ⟨q, (List.mem_filter.1 hq).1, hqj⟩
  have hused : e.usedCells s = [] := by
    refine List.filter_eq_nil_iff.2 fun c hc => ?_
    simp [hfree c.1 (Assoc.mem_keys_of_mem hc)]
  rw [sweep, hlist, List.foldl_append, h.foldl_sweepScope_kept hother, List.foldl_cons,
    List.foldl_nil, sweepScope_eq h hs, if_pos hused]

theorem Consistent.ne_nextScope_of_isOpen (h : Consistent e) (hi : e.IsOpen i) :
    i ≠ e.nextScope := by
  obtain ⟨s, hs, -⟩ := hi
  rintro rfl
  simp [scope?_nextScope h.toLinked] at hs

/-- The scopes that were active before the new one still are. -/
theorem Inside.isOpen_back (h : Inside P e₀ e) :
    ∀ i ∈ e₀.current :: e₀.entered, e.IsOpen i := by
  rw [← h.entered]
  exact h.consistent.entered_open

theorem Inside.linked_vacated (h : Inside P e₀ e) (h₀ : Consistent e₀) :
    Linked (e.vacated e₀.nextScope e₀.current e₀.entered) := by
  obtain ⟨hcurrent, hentered⟩ := List.forall_mem_cons.1 h.isOpen_back
  have hback := (h.consistent.steps_active hcurrent hentered).consistent
  refine hback.toLinked.modifyScope fun s hs => ?_
  refine ⟨rfl, rfl, rfl, rfl, List.nodup_nil, fun _ _ hn => absurd hn List.not_mem_nil,
    fun _ => rfl, fun _ _ => ⟨?_, ?_, ?_⟩⟩
  · exact (globalIndex_ne_nextScope h₀.toLinked).symm
  · exact (h₀.ne_nextScope_of_isOpen h₀.current_open).symm
  · exact fun hin => h₀.ne_nextScope_of_isOpen (h₀.entered_open _ hin) rfl

theorem Inside.keys_vacated (h : Inside P e₀ e) :
    Assoc.keys (e.vacated e₀.nextScope e₀.current e₀.entered).scopes =
      Assoc.keys e₀.scopes ++ [e₀.nextScope] := by
  rw [← h.table]
  simp [vacated, modifyScope]

/-- The environment after the scope opened in `e₀` is closed. -/
def closed (e₀ e : Environment) : Environment :=
  (e.vacated e₀.nextScope e₀.current e₀.entered).sweep

/-- Closing the new scope drops its cells and the scope itself. -/
theorem Inside.closed_eq (h : Inside P e₀ e) (h₀ : Consistent e₀) :
    ∃ s, closed e₀ e = ((e.vacated e₀.nextScope e₀.current e₀.entered).dropCells e₀.nextScope
      ((e.vacated e₀.nextScope e₀.current e₀.entered).unused s)).dropScope e₀.nextScope
        { s with cells := [] } := by
  have hl := h.linked_vacated h₀
  obtain ⟨s, hs, -⟩ := h.scope?_own
  have hs' : (e.vacated e₀.nextScope e₀.current e₀.entered).scope? e₀.nextScope =
      some { s with names := [], released := true } := by
    rw [vacated, scope?_modifyScope, if_pos rfl]
    exact congrArg (Option.map _) hs
  have hkept : ∀ j, j ≠ e₀.nextScope →
      (e.vacated e₀.nextScope e₀.current e₀.entered).Kept j := by
    intro j hj t ht hr
    rw [vacated, scope?_modifyScope, if_neg (Ne.symm hj)] at ht
    obtain ⟨hne, hbound⟩ := h.consistent.kept j t ht hr
    refine ⟨hne, fun x hx => hl.isBound_iff_slot?.2 ?_⟩
    -- What only the new scope has a name for is its own, so the slot has a name elsewhere.
    obtain ⟨i, n, hslot⟩ := h.consistent.toLinked.isBound_iff_slot?.1 (hbound x hx)
    by_cases hi : i = e₀.nextScope
    · subst hi
      rcases h.own hslot with hheld | ⟨g, -, hg⟩
      · exact absurd (Holds.unique h.consistent.toLinked ⟨t, ht, hx⟩ hheld) hj
      · refine ⟨globalIndex, g, ?_⟩
        rw [slot?_vacated, if_neg (globalIndex_ne_nextScope h₀.toLinked).symm, hg]
    · exact ⟨i, n, by rw [slot?_vacated, if_neg (Ne.symm hi), hslot]⟩
  have hfree : ∀ x ∈ Assoc.keys s.cells,
      (e.vacated e₀.nextScope e₀.current e₀.entered).isBound x = false := by
    intro x hx
    rw [Bool.eq_false_iff]
    intro hbound
    obtain ⟨i, n, hslot⟩ := hl.isBound_iff_slot?.1 hbound
    rw [slot?_vacated] at hslot
    split at hslot
    · cases hslot
    · rename_i hi
      exact h.apart (Ne.symm hi) hslot ⟨s, hs, hx⟩
  exact ⟨_, hl.sweep_last h.keys_vacated hs' rfl hkept hfree⟩

theorem Inside.slot?_closed (h : Inside P e₀ e) (h₀ : Consistent e₀) (hj : j ≠ e₀.nextScope) :
    (closed e₀ e).slot? j n = e.slot? j n := by
  obtain ⟨s, heq⟩ := h.closed_eq h₀
  rw [heq, (scope?_dropped (x := 0) (h.linked_vacated h₀) hj).1, slot?_vacated,
    if_neg (Ne.symm hj)]

theorem Inside.value?_closed (h : Inside P e₀ e) (h₀ : Consistent e₀) (hj : j ≠ e₀.nextScope) :
    (closed e₀ e).value? j x = e.value? j x := by
  obtain ⟨s, heq⟩ := h.closed_eq h₀
  rw [heq, (scope?_dropped (n := "") (h.linked_vacated h₀) hj).2, value?_vacated]

theorem Inside.keys_closed (h : Inside P e₀ e) (h₀ : Consistent e₀) :
    Assoc.keys (closed e₀ e).scopes = Assoc.keys e₀.scopes := by
  obtain ⟨s, heq⟩ := h.closed_eq h₀
  have hnew := Assoc.get?_eq_none_iff.1 (scope?_nextScope h₀.toLinked)
  rw [heq, keys_scopes_dropScope, keys_dropCells, h.keys_vacated, List.erase_append_right _ hnew]
  simp

theorem Inside.scope?_closed_own (h : Inside P e₀ e) (h₀ : Consistent e₀) :
    (closed e₀ e).scope? e₀.nextScope = none := by
  refine Assoc.get?_eq_none_iff.2 ?_
  rw [h.keys_closed h₀]
  exact Assoc.get?_eq_none_iff.1 (scope?_nextScope h₀.toLinked)

theorem Inside.isolated (h : Inside P e₀ e) (h₀ : Consistent e₀) :
    Isolated P e₀ (closed e₀ e) := by
  have hold : ∀ {j}, e₀.scope? j ≠ none → j ≠ e₀.nextScope := by
    rintro j hj rfl
    exact hj (scope?_nextScope h₀.toLinked)
  have hrest := (h.linked_vacated h₀).sweep_spec.2.2
  refine ⟨congrArg (·.current) hrest, congrArg (·.entered) hrest, h.keys_closed h₀, ?_, ?_, ?_⟩
  · intro i n x hx
    obtain ⟨t, ht, -⟩ := Option.bind_eq_some_iff.1 hx
    rw [h.slot?_closed h₀ (hold (by simp [ht]))]
    exact h.names hx
  · intro i n x hx
    have hi : i ≠ e₀.nextScope := by
      rintro rfl
      rw [slot?, h.scope?_closed_own h₀] at hx
      cases hx
    rw [h.slot?_closed h₀ hi] at hx
    exact (h.added hi hx).imp_right fun hnew => ⟨hnew.1, hnew.2.1⟩
  · intro i x v hv
    obtain ⟨t, ht, -⟩ := Option.bind_eq_some_iff.1 hv
    rw [h.value?_closed h₀ (hold (by simp [ht]))]
    exact h.values hv

theorem Inside.ends_closeScope_eq (h : Inside P e₀ e) (h₀ : Consistent e₀) :
    Ends (Scoped.closeScope e₀.nextScope) e (fun _ e' => e' = closed e₀ e) fun _ _ => False := by
  have hglobal := (globalIndex_ne_nextScope h₀.toLinked).symm
  have hactive : ¬ (decide (e₀.nextScope = e₀.current) ||
      e₀.entered.contains e₀.nextScope) = true := by
    simp only [Bool.or_eq_true, decide_eq_true_eq, List.contains_iff_mem, not_or]
    refine ⟨(h₀.ne_nextScope_of_isOpen h₀.current_open).symm, fun hin => ?_⟩
    exact h₀.ne_nextScope_of_isOpen (h₀.entered_open _ hin) rfl
  obtain ⟨s, hs, -⟩ := h.scope?_own
  simp only [Scoped.closeScope, Scoped.leave, PhpInterpreter.ends_bind, ends_getThe, h.entered,
    ends_set, ends_pure, Scoped.release]
  rw [if_neg hglobal, if_neg hactive]
  simp only [PhpInterpreter.ends_bind, Scoped.ends_get, ends_modify]
  refine ⟨fun _ _ => rfl, fun hnone => ?_⟩
  have hs' : scope? { e with current := e₀.current, entered := e₀.entered } e₀.nextScope = some s :=
    hs
  simp [hs'] at hnone

theorem Inside.ends_closeScope (h : Inside P e₀ e) (h₀ : Consistent e₀) :
    Ends (Scoped.closeScope e₀.nextScope) e (fun _ e' => Isolated P e₀ e') fun _ _ => False := by
  refine (h.ends_closeScope_eq h₀).mono ?_ fun _ _ hf => hf
  rintro _ _ rfl
  exact h.isolated h₀

end Environment

end PhpInterpreter
