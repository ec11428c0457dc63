import PhpInterpreter.Proofs.Scope.Bond
import PhpInterpreter.Proofs.Scope.Isolation

/-!
Scopes opened in two environments that agree on some global names. What is seen from inside the one,
its own names and those global names, mirrors what is seen from inside the other: names lead to
cells that stand for each other, and such cells hold the same. Which cells these are is settled from
the start: the cells of one global name, and the cells made since, in the order they are made in.
-/

namespace PhpInterpreter

namespace Environment

variable {P : String → Prop} {e₀ e₀' e e' u : Environment} {i i' j j' x x' y y' : Int}
  {name n : String} {l l' : Location}

/-! ## Agreement -/

/-- The value that a name of the scope `i` stands for. -/
def valueOf? (e : Environment) (i : Int) (name : String) : Option Value :=
  (e.slot? i name).bind fun x => (Assoc.get? x e.owners).bind fun o => e.value? o x

/-- Two names of the scope `i` are bound to one slot. -/
def Shares (e : Environment) (i : Int) (name other : String) : Prop :=
  ∃ x, e.slot? i name = some x ∧ e.slot? i other = some x

/-- The environments agree on the global names among the given ones: which of them are bound, to
what values, and which share a slot. -/
structure AgreeOn (P : String → Prop) (e e' : Environment) : Prop where
  bound : ∀ g, P g → (e'.slot? globalIndex g).isSome = (e.slot? globalIndex g).isSome
  value : ∀ g, P g → e'.valueOf? globalIndex g = e.valueOf? globalIndex g
  shared : ∀ g h, P g → P h → (e'.Shares globalIndex g h ↔ e.Shares globalIndex g h)

theorem Linked.valueOf?_eq (h : Linked e) (hx : e.slot? i name = some x) (hj : e.Holds j x) :
    e.valueOf? i name = e.value? j x := by
  simp [valueOf?, hx, (h.owner_iff x j).2 hj]

/-- Environments that the scopes are opened in. -/
structure Matched (P : String → Prop) (e₀ e₀' : Environment) : Prop where
  consistent : Consistent e₀
  consistent' : Consistent e₀'
  agree : AgreeOn P e₀ e₀'

/-! ## Cells that stand for each other -/

/-- Names seen from inside scopes opened in `e₀` and `e₀'`, with the scopes that bind them: all of
their own, and the global names among the given ones. -/
inductive Sees (P : String → Prop) (e₀ e₀' : Environment) : Int → Int → String → Prop
  | own (name : String) : Sees P e₀ e₀' e₀.nextScope e₀'.nextScope name
  | global {name : String} (h : P name) : Sees P e₀ e₀' globalIndex globalIndex name

/-- Cells, given by scope and slot, that stand for each other. -/
inductive Mates (P : String → Prop) (e₀ e₀' : Environment) : Int → Int → Int → Int → Prop
  | made {i i' : Int} {name : String} (h : Sees P e₀ e₀' i i' name) (k : Nat) :
      Mates P e₀ e₀' i (e₀.nextSlot + k) i' (e₀'.nextSlot + k)
  | old {i i' x x' : Int} (name : String) (h : P name)
      (hx : e₀.slot? globalIndex name = some x) (hx' : e₀'.slot? globalIndex name = some x')
      (hi : e₀.Holds i x) (hi' : e₀'.Holds i' x') : Mates P e₀ e₀' i x i' x'

theorem Sees.scope_iff (h₀ : Matched P e₀ e₀') (h : Sees P e₀ e₀' i i' name)
    (h' : Sees P e₀ e₀' j j' n) : i = j ↔ i' = j' := by
  have hne := globalIndex_ne_nextScope h₀.consistent.toLinked
  have hne' := globalIndex_ne_nextScope h₀.consistent'.toLinked
  cases h <;> cases h' <;> simp [hne, hne', hne.symm, hne'.symm]

theorem Sees.symm (h : Sees P e₀ e₀' j j' name) : Sees P e₀' e₀ j' j name := by
  cases h with
  | own => exact .own name
  | global hP => exact .global hP

theorem Sees.isOpen (hsee : Sees P e₀ e₀' j j' name) (h : Inside P e₀ e) : e.IsOpen j := by
  cases hsee with
  | own => exact h.scope?_own
  | global => exact h.consistent.global_open

theorem Sees.reaches (hsee : Sees P e₀ e₀' j j' name) (h : Inside P e₀ e)
    (hx : e.slot? j name = some x) : e.Reaches P e₀.nextScope x := by
  cases hsee with
  | own => exact h.own hx
  | global hP => exact .inr ⟨name, hP, hx⟩

/-- A slot that was there is no slot of a cell made since. -/
theorem Mates.slot_iff (h₀ : Matched P e₀ e₀') (h : Mates P e₀ e₀' i x i' x')
    (h' : Mates P e₀ e₀' j y j' y') : x = y ↔ x' = y' := by
  have hlt := h₀.consistent.slot_lt
  have hlt' := h₀.consistent'.slot_lt
  cases h with
  | made hsee k =>
    cases h' with
    | made hsee' k' => omega
    | old g' hP' hy hy' hj hj' =>
      have := hlt _ _ hj
      have := hlt' _ _ hj'
      omega
  | old g hP hx hx' hi hi' =>
    cases h' with
    | made hsee' k' =>
      have := hlt _ _ hi
      have := hlt' _ _ hi'
      omega
    | old g' hP' hy hy' hj hj' =>
      have hshared := h₀.agree.shared g g' hP hP'
      simpa [Shares, hx, hx', hy, hy', eq_comm] using hshared.symm

theorem Mates.cell_iff (h₀ : Matched P e₀ e₀') (h : Mates P e₀ e₀' i x i' x')
    (h' : Mates P e₀ e₀' j y j' y') : i = j ∧ x = y ↔ i' = j' ∧ x' = y' := by
  have hslot := h.slot_iff h₀ h'
  rw [hslot]
  refine and_congr_left fun hsame => ?_
  have hlt' := h₀.consistent'.slot_lt
  cases h with
  | made hsee k =>
    cases h' with
    | made hsee' k' => exact hsee.scope_iff h₀ hsee'
    | old g' hP' hy hy' hj hj' =>
      have := hlt' _ _ hj'
      omega
  | old g hP hx hx' hi hi' =>
    cases h' with
    | made hsee' k' =>
      have := hlt' _ _ hi'
      omega
    | old g' hP' hy hy' hj hj' =>
      obtain rfl := hslot.2 hsame
      obtain rfl := hsame
      exact iff_of_true (hi.unique h₀.consistent.toLinked hj)
        (hi'.unique h₀.consistent'.toLinked hj')

/-- Slots of cells that stand for each other and are there. -/
def Twins (P : String → Prop) (e₀ e₀' e : Environment) (x x' : Int) : Prop :=
  ∃ i i', Mates P e₀ e₀' i x i' x' ∧ e.Holds i x

theorem Twins.mono (h : Twins P e₀ e₀' e x x') (hheld : ∀ i, e.Holds i x → u.Holds i x) :
    Twins P e₀ e₀' u x x' := by
  obtain ⟨i, i', hmates, hi⟩ := h
  exact ⟨i, i', hmates, hheld i hi⟩

theorem Twins.slot_iff (h₀ : Matched P e₀ e₀') (h : Twins P e₀ e₀' e x x')
    (h' : Twins P e₀ e₀' e y y') : x = y ↔ x' = y' := by
  obtain ⟨i, i', hmates, -⟩ := h
  obtain ⟨j, j', hmates', -⟩ := h'
  exact hmates.slot_iff h₀ hmates'

/-! ## Environments inside the scopes -/

/-- Environments inside scopes opened in `e₀` and `e₀'` that look alike from there. -/
structure Mirrors (P : String → Prop) (e₀ e₀' e e' : Environment) : Prop where
  inside : Inside P e₀ e
  inside' : Inside P e₀' e'
  next : e'.nextSlot - e₀'.nextSlot = e.nextSlot - e₀.nextSlot
  names : ∀ {j j' name}, Sees P e₀ e₀' j j' name →
    Option.Rel (Twins P e₀ e₀' e) (e.slot? j name) (e'.slot? j' name)
  values : ∀ {i x i' x'}, Mates P e₀ e₀' i x i' x' → e'.value? i' x' = e.value? i x

namespace Mirrors

theorem holds (h : Mirrors P e₀ e₀' e e') (hm : Mates P e₀ e₀' i x i' x') (hi : e.Holds i x) :
    e'.Holds i' x' := by
  rw [holds_iff, h.values hm]
  exact holds_iff.1 hi

/-- A name that is seen is bound in both, or in none. -/
theorem bound_cases (h : Mirrors P e₀ e₀' e e') (hsee : Sees P e₀ e₀' j j' name) :
    (e.slot? j name = none ∧ e'.slot? j' name = none) ∨
      ∃ x x', e.slot? j name = some x ∧ e'.slot? j' name = some x' ∧ Twins P e₀ e₀' e x x' := by
  have hrel := h.names hsee
  revert hrel
  generalize e.slot? j name = a
  generalize e'.slot? j' name = b
  rintro (hx | -)
  · exact .inr ⟨_, _, rfl, rfl, hx⟩
  · exact .inl ⟨rfl, rfl⟩

/-- Twins have the same names. -/
theorem slot?_iff (h₀ : Matched P e₀ e₀') (h : Mirrors P e₀ e₀' e e')
    (hsee : Sees P e₀ e₀' j j' name) (ht : Twins P e₀ e₀' e x x') :
    e.slot? j name = some x ↔ e'.slot? j' name = some x' := by
  rcases h.bound_cases hsee with ⟨hy, hy'⟩ | ⟨y, y', hy, hy', hrel⟩
  · simp [hy, hy']
  · simpa [hy, hy'] using hrel.slot_iff h₀ ht

/-- Both have made as many cells. -/
theorem exists_next (h : Mirrors P e₀ e₀' e e') :
    ∃ k : Nat, e.nextSlot = e₀.nextSlot + k ∧ e'.nextSlot = e₀'.nextSlot + k := by
  refine ⟨(e.nextSlot - e₀.nextSlot).toNat, ?_⟩
  have := h.next
  have := h.inside.slots
  omega

/-- Names of cells that are still there. -/
theorem rel_of_holds (h : Mirrors P e₀ e₀' e e') (hsee : Sees P e₀ e₀' j j' name)
    (hheld : ∀ i x, e.slot? j name = some x → e.Holds i x → u.Holds i x) :
    Option.Rel (Twins P e₀ e₀' u) (e.slot? j name) (e'.slot? j' name) := by
  rcases h.bound_cases hsee with ⟨hx, hx'⟩ | ⟨x, x', hx, hx', ht⟩
  · rw [hx, hx']
    exact .none
  · rw [hx, hx']
    exact .some (ht.mono fun i => hheld i x hx)

/-! ## Names -/

theorem declared (h₀ : Matched P e₀ e₀') (h : Mirrors P e₀ e₀' e e')
    (hsee : Sees P e₀ e₀' j j' name) (hfree : e.slot? j name = none)
    (hfree' : e'.slot? j' name = none) :
    Mirrors P e₀ e₀' (Scoped.declared j name e) (Scoped.declared j' name e') ∧
      Mates P e₀ e₀' j e.nextSlot j' e'.nextSlot := by
  have hmates : Mates P e₀ e₀' j e.nextSlot j' e'.nextSlot := by
    obtain ⟨k, hk, hk'⟩ := h.exists_next
    rw [hk, hk']
    exact .made hsee k
  obtain ⟨s, hs, -⟩ := hsee.isOpen h.inside
  obtain ⟨s', hs', -⟩ := hsee.symm.isOpen h.inside'
  have hinside : Inside P e₀ (Scoped.declared j name e) ∧
      Inside P e₀' (Scoped.declared j' name e') := by
    have hl := h₀.consistent.toLinked
    have hl' := h₀.consistent'.toLinked
    cases hsee with
    | own => exact ⟨h.inside.declared hl hfree, h.inside'.declared hl' hfree'⟩
    | global hP =>
      exact ⟨h.inside.declaredGlobal hl hP hfree, h.inside'.declaredGlobal hl' hP hfree'⟩
  have hheld : ∀ i x, e.Holds i x → (Scoped.declared j name e).Holds i x := by
    intro i x hx
    obtain ⟨v, hv⟩ := holds_iff.1 hx
    rw [holds_iff, value?_declared hs]
    split
    · exact ⟨_, rfl⟩
    · exact ⟨v, hv⟩
  refine ⟨⟨hinside.1, hinside.2, ?_, ?_, ?_⟩, hmates⟩
  · have hnext := h.next
    change e'.nextSlot + 1 - _ = e.nextSlot + 1 - _
    omega
  · intro i i' n hsee'
    simp only [slot?_declared hs, slot?_declared hs', hsee.scope_iff h₀ hsee']
    split
    · refine .some ⟨j, j', hmates, holds_iff.2 ⟨.null, ?_⟩⟩
      rw [value?_declared hs, if_pos ⟨rfl, rfl⟩]
    · exact h.rel_of_holds hsee' fun i x _ => hheld i x
  · intro i x i' x' hm
    simp only [value?_declared hs, value?_declared hs', h.values hm, hmates.cell_iff h₀ hm]

theorem setName (h₀ : Matched P e₀ e₀') (h : Mirrors P e₀ e₀' e e')
    (hfree : e.slot? e₀.nextScope name = none) (hfree' : e'.slot? e₀'.nextScope name = none)
    (hsee : Sees P e₀ e₀' j j' n) (hx : e.slot? j n = some x) (hx' : e'.slot? j' n = some x') :
    Mirrors P e₀ e₀' (e.setName e₀.nextScope name x) (e'.setName e₀'.nextScope name x') := by
  obtain ⟨s, hs, -⟩ := h.inside.scope?_own
  obtain ⟨s', hs', -⟩ := h.inside'.scope?_own
  have hheld : ∀ i y, e.Holds i y → (e.setName e₀.nextScope name x).Holds i y := by
    intro i y hy
    rw [holds_iff, value?_setName]
    exact holds_iff.1 hy
  refine ⟨h.inside.setName h₀.consistent.toLinked hfree (hsee.reaches h.inside hx),
    h.inside'.setName h₀.consistent'.toLinked hfree' (hsee.symm.reaches h.inside' hx'), h.next,
    ?_, ?_⟩
  · intro i i' m hsee'
    simp only [slot?_setName hs, slot?_setName hs', (Sees.own name).scope_iff h₀ hsee']
    split
    · have hrel := h.rel_of_holds hsee fun i x _ => hheld i x
      rwa [hx, hx'] at hrel
    · exact h.rel_of_holds hsee' fun i x _ => hheld i x
  · intro i y i' y' hm
    rw [value?_setName, value?_setName, h.values hm]

/-- The last name of a slot goes in both, or in none. -/
theorem isBound_eraseName (h₀ : Matched P e₀ e₀') (h : Mirrors P e₀ e₀' e e')
    (hx : e.slot? e₀.nextScope name = some x) (hx' : e'.slot? e₀'.nextScope name = some x')
    (ht : Twins P e₀ e₀' e x x') :
    (e'.eraseName e₀'.nextScope name).isBound x' = (e.eraseName e₀.nextScope name).isBound x := by
  rw [Bool.eq_iff_iff, h.inside.isBound_eraseName_iff h₀.consistent.toLinked hx,
    h.inside'.isBound_eraseName_iff h₀.consistent'.toLinked hx']
  refine or_congr (exists_congr fun n => and_congr_right fun _ => ?_)
    (exists_congr fun g => and_congr_right fun hP => ?_)
  · exact (h.slot?_iff h₀ (.own n) ht).symm
  · exact (h.slot?_iff h₀ (.global hP) ht).symm

theorem unbound (h₀ : Matched P e₀ e₀') (h : Mirrors P e₀ e₀' e e')
    (hx : e.slot? e₀.nextScope name = some x) (hx' : e'.slot? e₀'.nextScope name = some x')
    (ht : Twins P e₀ e₀' e x x') :
    Mirrors P e₀ e₀' (Scoped.unbound e₀.nextScope name x e)
      (Scoped.unbound e₀'.nextScope name x' e') := by
  have hl₀ := h₀.consistent.toLinked
  have hl₀' := h₀.consistent'.toLinked
  obtain ⟨hin, hslot⟩ := h.inside.unbound hl₀ hx
  obtain ⟨hin', hslot'⟩ := h.inside'.unbound hl₀' hx'
  have hbound := h.isBound_eraseName h₀ hx hx' ht
  refine ⟨hin, hin', ?_, ?_, ?_⟩
  · rw [h.inside.nextSlot_unbound hl₀ hx, h.inside'.nextSlot_unbound hl₀' hx']
    exact h.next
  · intro j j' n hsee
    simp only [hslot, hslot', (Sees.own name).scope_iff h₀ hsee]
    split
    · exact .none
    · rename_i hother
      refine h.rel_of_holds hsee fun i y hy hheld => ?_
      rw [holds_iff, h.inside.value?_unbound hl₀ hx, if_neg]
      · exact holds_iff.1 hheld
      -- A slot that still has a name keeps its cell.
      · rintro ⟨hfree, -, rfl⟩
        have hl := h.inside.consistent.toLinked
        rw [← (Sees.own name).scope_iff h₀ hsee] at hother
        have hkept : (e.eraseName e₀.nextScope name).isBound x = true :=
          hl.eraseName.isBound_iff_slot?.2 ⟨j, n, by rw [slot?_eraseName hl, if_neg hother, hy]⟩
        simp [hfree] at hkept
  · intro i y i' y' hm
    rw [h.inside.value?_unbound hl₀ hx, h.inside'.value?_unbound hl₀' hx', hbound, h.values hm]
    cases hfree : (e.eraseName e₀.nextScope name).isBound x with
    | true => simp
    | false =>
      -- The cell that goes is one of the new scope, in both.
      obtain ⟨o, o', hmates, hheld⟩ := ht
      have hown := (h.inside.unbound_eq hl₀ hx hfree).1
      have hown' := (h.inside'.unbound_eq hl₀' hx' (hbound.trans hfree)).1
      obtain rfl := hheld.unique h.inside.consistent.toLinked hown
      obtain rfl := (h.holds hmates hheld).unique h.inside'.consistent.toLinked hown'
      simp only [hmates.cell_iff h₀ hm]

/-! ## Values -/

/-- A name of a location is one of the location that stands for it. -/
theorem slot?_alike (h₀ : Matched P e₀ e₀') (h : Mirrors P e₀ e₀' e e')
    (hl : l.Alike (Mates P e₀ e₀') l') (hsee : Sees P e₀ e₀' j j' n)
    (hx : e.slot? j n = some l.slot) : e'.slot? j' n = some l'.slot := by
  cases hl with
  | mk hmates path char? =>
    rcases h.bound_cases hsee with ⟨hy, -⟩ | ⟨y, y', hy, hy', o, o', hmates', -⟩
    · rw [hy] at hx
      cases hx
    · rw [hy', (hmates'.slot_iff h₀ hmates).1 (Option.some.inj (hy.symm.trans hx))]

theorem written (h₀ : Matched P e₀ e₀') (h : Mirrors P e₀ e₀' e e')
    (hl : l.Alike (Mates P e₀ e₀') l') (hx : e.slot? e₀.nextScope n = some l.slot) (v : Value) :
    Mirrors P e₀ e₀' (Scoped.written l v e) (Scoped.written l' v e') := by
  have hx' := h.slot?_alike h₀ hl (.own n) hx
  refine ⟨h.inside.written h₀.consistent.toLinked hx v,
    h.inside'.written h₀.consistent'.toLinked hx' v, h.next, ?_, ?_⟩
  · intro j j' m hsee
    rw [slot?_written, slot?_written]
    refine h.rel_of_holds hsee fun i y _ hy => ?_
    obtain ⟨w, hw⟩ := holds_iff.1 hy
    rw [holds_iff, value?_written, hw]
    split
    · exact ⟨v, rfl⟩
    · exact ⟨w, rfl⟩
  · intro i y i' y' hm
    cases hl with
    | mk hmates path char? => simp only [value?_written, h.values hm, hmates.cell_iff h₀ hm]

/-! ## Operations -/

theorem cleared (h₀ : Matched P e₀ e₀') (h : Mirrors P e₀ e₀' e e') :
    Mirrors P e₀ e₀' (e.cleared e₀.nextScope name) (e'.cleared e₀'.nextScope name) := by
  rcases h.bound_cases (.own name) with ⟨hx, hx'⟩ | ⟨x, x', hx, hx', ht⟩
  · rw [Environment.cleared, Environment.cleared, hx, hx']
    exact h
  · rw [Environment.cleared, Environment.cleared, hx, hx']
    exact h.unbound h₀ hx hx' ht

/-- A name becomes another one for a slot that is seen. -/
theorem rebound (h₀ : Matched P e₀ e₀') (h : Mirrors P e₀ e₀' e e')
    (hsee : Sees P e₀ e₀' j j' n) (hx : e.slot? j n = some x) (hx' : e'.slot? j' n = some x') :
    Mirrors P e₀ e₀' (e.rebound e₀.nextScope name x) (e'.rebound e₀'.nextScope name x') := by
  have ht : Twins P e₀ e₀' e x x' := by
    have hrel := h.names hsee
    rw [hx, hx'] at hrel
    cases hrel with
    | some ht => exact ht
  simp only [Environment.rebound, h.slot?_iff h₀ (.own name) ht]
  split
  · exact h
  · rename_i hother
    have hslot := (h.inside.cleared h₀.consistent.toLinked name).2
    have hslot' := (h.inside'.cleared h₀.consistent'.toLinked name).2
    -- The slot keeps the name it was found by.
    have hfound : ¬ (e₀'.nextScope = j' ∧ name = n) := by
      rintro ⟨rfl, rfl⟩
      exact hother hx'
    have hfound' : ¬ (e₀.nextScope = j ∧ name = n) := by
      rwa [(Sees.own name).scope_iff h₀ hsee]
    refine (h.cleared h₀).setName h₀ (by simp [hslot]) (by simp [hslot']) hsee ?_ ?_
    · rw [hslot, if_neg hfound', hx]
    · rw [hslot', if_neg hfound, hx']

theorem concur_lookup (h : Mirrors P e₀ e₀' e e') (name : String) :
    Scoped.Concur (Mirrors P e₀ e₀') (Scoped.lookup name none) (Scoped.lookup name none) e e'
      fun l? l?' _ => Option.Rel (Location.Alike (Mates P e₀ e₀')) l? l?' := by
  rcases h.bound_cases (.own name) with ⟨hx, hx'⟩ | ⟨x, x', hx, hx', i, i', hmates, hi⟩
  · have hnone := IsOpen.ends_lookup_none h.inside.scope?_own none h.inside.current hx
    have hnone' := IsOpen.ends_lookup_none h.inside'.scope?_own none h.inside'.current hx'
    refine hnone.paired_returns hnone' ?_
    rintro _ _ _ _ ⟨rfl, rfl⟩ ⟨rfl, rfl⟩
    exact ⟨h, .none⟩
  · have hfound := h.inside.consistent.toLinked.ends_lookup_some none h.inside.current hx hi
    have hfound' := h.inside'.consistent.toLinked.ends_lookup_some none h.inside'.current hx'
      (h.holds hmates hi)
    refine hfound.paired_returns hfound' ?_
    rintro _ _ _ _ ⟨rfl, rfl⟩ ⟨rfl, rfl⟩
    exact ⟨h, .some (.mk hmates [] none)⟩

/-- The name may be one of the new scopes or a global one. -/
theorem concur_declare (h₀ : Matched P e₀ e₀') (h : Mirrors P e₀ e₀' e e')
    (hsee : Sees P e₀ e₀' j j' name) (i? i?' : Option Int) (hi : i?.getD e.current = j)
    (hi' : i?'.getD e'.current = j') :
    Scoped.Concur (Mirrors P e₀ e₀') (Scoped.declare name i?) (Scoped.declare name i?') e e'
      fun l l' u => l.Alike (Mates P e₀ e₀') l' ∧ u.Holds l.scope l.slot ∧
        u.slot? j name = some l.slot ∧ l.path = [] ∧ l.char? = none := by
  have ho := hsee.isOpen h.inside
  have ho' := hsee.symm.isOpen h.inside'
  rcases h.bound_cases hsee with ⟨hx, hx'⟩ | ⟨x, x', hx, hx', o, o', hmates, hheld⟩
  · refine (ho.ends_declare_none hi hx).paired_returns (ho'.ends_declare_none hi' hx') ?_
    rintro _ _ _ _ ⟨rfl, rfl⟩ ⟨rfl, rfl⟩
    obtain ⟨s, hs, -⟩ := ho
    obtain ⟨hdeclared, hmates⟩ := h.declared h₀ hsee hx hx'
    refine ⟨hdeclared, .mk hmates [] none, holds_iff.2 ⟨.null, ?_⟩, ?_, rfl, rfl⟩
    · rw [value?_declared hs, if_pos ⟨rfl, rfl⟩]
    · rw [slot?_declared hs, if_pos ⟨rfl, rfl⟩]
  · have hfound := h.inside.consistent.toLinked.ends_declare_some hi hx hheld
    have hfound' := h.inside'.consistent.toLinked.ends_declare_some hi' hx' (h.holds hmates hheld)
    refine hfound.paired_returns hfound' ?_
    rintro _ _ _ _ ⟨rfl, rfl⟩ ⟨rfl, rfl⟩
    exact ⟨h, .mk hmates [] none, hheld, hx, rfl, rfl⟩

theorem concur_unset (h₀ : Matched P e₀ e₀') (h : Mirrors P e₀ e₀' e e') (name : String) :
    Scoped.Concur (Mirrors P e₀ e₀') (Scoped.unset name none) (Scoped.unset name none) e e'
      fun _ _ _ => True := by
  have hgone := IsOpen.ends_unset h.inside.scope?_own name none h.inside.current
  have hgone' := IsOpen.ends_unset h.inside'.scope?_own name none h.inside'.current
  refine hgone.paired_returns hgone' ?_
  rintro _ _ _ _ rfl rfl
  exact ⟨h.cleared h₀, trivial⟩

theorem concur_bind (h₀ : Matched P e₀ e₀') (h : Mirrors P e₀ e₀' e e')
    (hl : l.Alike (Mates P e₀ e₀') l') (hsee : Sees P e₀ e₀' j j' n)
    (hx : e.slot? j n = some l.slot) (hpath : l.path = []) (hchar : l.char? = none)
    (name : String) :
    Scoped.Concur (Mirrors P e₀ e₀') (Scoped.bind name l none) (Scoped.bind name l' none) e e'
      fun _ _ _ => True := by
  have hx' := h.slot?_alike h₀ hl hsee hx
  have hwhole : l'.path = [] ∧ l'.char? = none := by
    cases hl with
    | mk hmates path char? => exact ⟨hpath, hchar⟩
  refine (h.inside.ends_bind_eq h₀.consistent.toLinked hpath hchar).paired_returns
    (h.inside'.ends_bind_eq h₀.consistent'.toLinked hwhole.1 hwhole.2) ?_
  rintro _ _ _ _ rfl rfl
  exact ⟨h.rebound h₀ hsee hx hx', trivial⟩

theorem concur_bindGlobal (h₀ : Matched P e₀ e₀') (h : Mirrors P e₀ e₀' e e') (hP : P name) :
    Scoped.Concur (Mirrors P e₀ e₀') (Scoped.bindGlobal name) (Scoped.bindGlobal name) e e'
      fun _ _ _ => True := by
  have hsee : Sees P e₀ e₀' globalIndex globalIndex name := .global hP
  have hdeclare := h.concur_declare h₀ hsee (some globalIndex) (some globalIndex) rfl rfl
  refine Paired.bind (Paired.mono hdeclare ?_ fun _ _ _ _ h => h)
  rintro l l' u u' ⟨h, hl, -, hx, hpath, hchar⟩
  have hne : u.current ≠ globalIndex := by
    rw [h.inside.current]
    exact (globalIndex_ne_nextScope h₀.consistent.toLinked).symm
  have hne' : u'.current ≠ globalIndex := by
    rw [h.inside'.current]
    exact (globalIndex_ne_nextScope h₀.consistent'.toLinked).symm
  have hbind := h.concur_bind h₀ hl hsee hx hpath hchar name
  simp only [Paired, PhpInterpreter.ends_bind, ends_getThe, ne_eq, hne, hne', not_false_eq_true,
    if_true, ends_pure]
  exact hbind

/-- A store fails in both, and for the same reason, or in none. -/
theorem concur_store (h₀ : Matched P e₀ e₀') (h : Mirrors P e₀ e₀' e e')
    (hl : l.Alike (Mates P e₀ e₀') l') (hheld : e.Holds l.scope l.slot)
    (hx : e.slot? e₀.nextScope n = some l.slot) (v : Value) :
    Scoped.Concur (Mirrors P e₀ e₀') (Scoped.store l v) (Scoped.store l' v) e e'
      fun _ _ u => u.Holds l.scope l.slot ∧ u.slot? e₀.nextScope n = some l.slot := by
  have hwritten := fun new => h.written h₀ hl hx new
  obtain ⟨old, hold⟩ := holds_iff.1 hheld
  have hkept : ∀ new, (Scoped.written l new e).Holds l.scope l.slot ∧
      (Scoped.written l new e).slot? e₀.nextScope n = some l.slot := by
    intro new
    refine ⟨holds_iff.2 ⟨new, ?_⟩, slot?_written.trans hx⟩
    rw [value?_written, if_pos ⟨rfl, rfl⟩, hold]
    rfl
  cases hl with
  | mk hmates path char? =>
    obtain ⟨s, hs, hcell⟩ := Option.bind_eq_some_iff.1 hold
    obtain ⟨s', hs', hcell'⟩ := Option.bind_eq_some_iff.1 ((h.values hmates).trans hold)
    cases char? with
    | some c => exact ⟨rfl, h⟩
    | none =>
      cases hnew : old.setAt? path v with
      | none => simp [Scoped.Concur, Paired, Scoped.ends_store, hs, hs', hcell, hcell', hnew, h]
      | some new =>
        have hdone := And.intro (hwritten new) (hkept new)
        simpa [Scoped.Concur, Paired, Scoped.ends_store, hs, hs', hcell, hcell', hnew] using hdone

end Mirrors

/-- Both scopes are worked in alike. -/
def Matched.bond (h₀ : Matched P e₀ e₀') : Bond where
  envs := Mirrors P e₀ e₀'
  cells := Mates P e₀ e₀'
  writable e i x := e.Holds i x ∧ ∃ source, e.slot? e₀.nextScope source = some x
  global := P
  unique h h' := h.slot_iff h₀ h'
  value h hm := h.values hm
  lookup name h := h.concur_lookup name
  declare name h := by
    have hdeclare := h.concur_declare h₀ (.own name) none none h.inside.current h.inside'.current
    refine Paired.mono hdeclare ?_ fun _ _ _ _ h => h
    rintro l l' u u' ⟨h, hl, hheld, hx, -⟩
    exact ⟨h, hl, hheld, name, hx⟩
  unset name h := h.concur_unset h₀ name
  bind name h hl hw hpath hchar := by
    obtain ⟨-, source, hx⟩ := hw
    exact h.concur_bind h₀ hl (.own source) hx hpath hchar name
  bindGlobal h hP := h.concur_bindGlobal h₀ hP
  store v h hl hw := by
    obtain ⟨hheld, source, hx⟩ := hw
    refine Paired.mono (h.concur_store h₀ hl hheld hx v) ?_ fun _ _ _ _ h => h
    rintro _ _ u u' ⟨h, hheld, hx⟩
    exact ⟨h, hheld, source, hx⟩

/-! ## Opening and closing -/

/-- Scopes that were just opened have no names yet. -/
theorem Matched.mirrors_opened (h₀ : Matched P e₀ e₀') (name name' : String)
    (kind kind' : ScopeKind) :
    Mirrors P e₀ e₀' (e₀.opened name kind) (e₀'.opened name' kind') := by
  have hc := h₀.consistent
  have hc' := h₀.consistent'
  refine ⟨hc.inside_opened, hc'.inside_opened, ?_, ?_, ?_⟩
  · change e₀'.nextSlot - e₀'.nextSlot = e₀.nextSlot - e₀.nextSlot
    omega
  · intro j j' n hsee
    rw [hc.slot?_opened, hc'.slot?_opened]
    cases hsee with
    | own =>
      rw [slot?_nextScope hc.toLinked, slot?_nextScope hc'.toLinked]
      exact .none
    | global hP =>
      have hbound := h₀.agree.bound n hP
      cases hx : e₀.slot? globalIndex n with
      | none =>
        have hx' : e₀'.slot? globalIndex n = none := by simpa [hx] using hbound
        rw [hx']
        exact .none
      | some x =>
        obtain ⟨x', hx'⟩ := Option.isSome_iff_exists.1 (hbound.trans (by rw [hx]; rfl))
        obtain ⟨i, hi⟩ := hc.toLinked.holds_of_slot? hx
        obtain ⟨i', hi'⟩ := hc'.toLinked.holds_of_slot? hx'
        rw [hx']
        refine .some ⟨i, i', .old n hP hx hx' hi hi', holds_iff.2 ?_⟩
        rw [hc.value?_opened]
        exact holds_iff.1 hi
  · intro i x i' x' hm
    rw [hc.value?_opened, hc'.value?_opened]
    cases hm with
    | made hsee k =>
      have hnone : ∀ {e : Environment} {i : Int}, Linked e →
          e.value? i (e.nextSlot + k) = none := by
        intro e i hl
        rw [Option.eq_none_iff_forall_ne_some]
        intro v hv
        have := hl.slot_lt _ _ (holds_iff.2 ⟨v, hv⟩)
        omega
      rw [hnone hc.toLinked, hnone hc'.toLinked]
    | old g hP hx hx' hi hi' =>
      rw [← hc'.toLinked.valueOf?_eq hx' hi', ← hc.toLinked.valueOf?_eq hx hi]
      exact h₀.agree.value g hP

/-- Global names stand for the same as long as the scopes mirror each other. -/
theorem Mirrors.agree (h₀ : Matched P e₀ e₀') (h : Mirrors P e₀ e₀' e e') : AgreeOn P e e' := by
  have hl := h.inside.consistent.toLinked
  have hl' := h.inside'.consistent.toLinked
  refine ⟨fun g hP => ?_, fun g hP => ?_, fun g g' hP hP' => ?_⟩
  · rcases h.bound_cases (.global hP) with ⟨hx, hx'⟩ | ⟨x, x', hx, hx', -⟩
    · rw [hx, hx']
    · rw [hx, hx']
      rfl
  · rcases h.bound_cases (.global hP) with ⟨hx, hx'⟩ | ⟨x, x', hx, hx', i, i', hmates, hi⟩
    · simp [valueOf?, hx, hx']
    · rw [hl.valueOf?_eq hx hi, hl'.valueOf?_eq hx' (h.holds hmates hi), h.values hmates]
  · rcases h.bound_cases (.global hP) with ⟨hx, hx'⟩ | ⟨x, x', hx, hx', ht⟩
    · simp [Shares, hx, hx']
    · simpa [Shares, hx, hx'] using (h.slot?_iff h₀ (.global hP') ht).symm

/-- Closing the scope leaves global names and their values. -/
theorem Inside.valueOf?_closed (h : Inside P e₀ e) (h₀ : Consistent e₀) :
    (closed e₀ e).valueOf? globalIndex name = e.valueOf? globalIndex name := by
  have hne := globalIndex_ne_nextScope h₀.toLinked
  have hl : Linked (closed e₀ e) := (h.linked_vacated h₀).steps_sweep.consistent.toLinked
  cases hx : e.slot? globalIndex name with
  | none => simp [valueOf?, h.slot?_closed h₀ hne, hx]
  | some x =>
    obtain ⟨j, hj⟩ := h.consistent.toLinked.holds_of_slot? hx
    have hj' : j ≠ e₀.nextScope := by
      rintro rfl
      exact h.apart hne hx hj
    have hkept : (closed e₀ e).Holds j x := by
      rw [holds_iff, h.value?_closed h₀ hj']
      exact holds_iff.1 hj
    rw [hl.valueOf?_eq ((h.slot?_closed h₀ hne).trans hx) hkept, h.value?_closed h₀ hj',
      h.consistent.toLinked.valueOf?_eq hx hj]

theorem AgreeOn.closed (h₀ : Matched P e₀ e₀') (hin : Inside P e₀ e) (hin' : Inside P e₀' e')
    (h : AgreeOn P e e') : AgreeOn P (closed e₀ e) (closed e₀' e') := by
  have hslot : ∀ {name}, (Environment.closed e₀ e).slot? globalIndex name =
      e.slot? globalIndex name :=
    hin.slot?_closed h₀.consistent (globalIndex_ne_nextScope h₀.consistent.toLinked)
  have hslot' : ∀ {name}, (Environment.closed e₀' e').slot? globalIndex name =
      e'.slot? globalIndex name :=
    hin'.slot?_closed h₀.consistent' (globalIndex_ne_nextScope h₀.consistent'.toLinked)
  refine ⟨fun g hP => ?_, fun g hP => ?_, fun g g' hP hP' => ?_⟩
  · rw [hslot, hslot']
    exact h.bound g hP
  · rw [hin.valueOf?_closed h₀.consistent, hin'.valueOf?_closed h₀.consistent']
    exact h.value g hP
  · simp only [Shares, hslot, hslot']
    exact h.shared g g' hP hP'

end Environment

end PhpInterpreter
