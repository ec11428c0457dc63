import PhpInterpreter.Proofs.Machine.Resolution

/-!
Plain assignments that fail. The value and the keys of the target are evaluated first; then the
target is resolved, and the value is written. Where resolving made a place the write succeeds, so an
assignment that fails after its parts were evaluated, or is refused, changes nothing.
-/

namespace PhpInterpreter

open Run Environment

namespace Run

variable {m : Machine} {target value : Term} {R : Unit → Machine → Prop} {F : Machine → Prop}

/-- The value of an assignment is evaluated while its target waits. -/
def valued (target value : Term) : Run Value := do
  pushPending target (some .write)
  pushPending value (some .read)
  resume (within value (value.eval (some .read)))
  let v ← popView
  let _ ← pop
  return v.value.defined

/-- What an assignment does before its target is resolved: its value is evaluated, then the keys of
the target. -/
def readied (target value : Term) : Run (Value × List Level) := do
  let v ← valued target value
  let levels ← target.evalKeys
  return (v, levels)

theorem assignBody_eq (head : Head) (target value : Term) :
    assignBody head target value (target.eval (some .write)) (value.eval (some .read)) = (do
      let v ← valued target value
      within target (target.eval (some .write))
      let l? ← popLocation
      pushView (← writeTo head.place.line l? v)) := by
  simp only [assignBody, valued, resume, bind_assoc, pure_bind]

/-- An assignment goes on from there by resolving its target and writing to it. -/
theorem ends_assignBody {head : Head} (ht : target.IsExpression)
    (h : Ends (readied target value) m (fun p m₁ => Ends (resolve target.root p.2) m₁
      (fun l? m₂ => Ends (writeTo head.place.line l? p.1) m₂
        (fun w m' => R () { m' with stack := .value w :: m'.stack }) fun _ => F)
      fun _ => F) fun _ => F) :
    Ends (assignBody head target value (target.eval (some .write)) (value.eval (some .read))) m R
      fun _ => F := by
  rw [assignBody_eq, ends_bind]
  rw [readied, ends_bind] at h
  refine h.mono (fun v m' hv => ?_) fun _ _ hf => hf
  simp only [ends_bind, ends_pure, ends_pushView] at hv ⊢
  refine ends_within_same target (ends_eval_write ht (hv.mono (fun levels m₁ hlevels => ?_)
    fun _ _ hf => hf))
  refine hlevels.mono (fun l? m₂ hl => ?_) fun _ _ hf => hf
  rwa [ends_popLocation rfl]

/-- Within the contract of tidy values, environments stay ones that operations lead to. -/
theorem reachable_of_at {m' : Machine} {frame : Contract.Frame} {n : Nat} (hm : Reachable m.env)
    (h : (Contract.tidy fun _ => True).At m frame n m') : Reachable m'.env := by
  obtain ⟨ws, heffect, hws, -⟩ := h.follows
  exact hm.effect heffect (hws id)

theorem ends_readied_reachable (hm : Reachable m.env) :
    Ends (readied target value) m (fun _ m₁ => Reachable m₁.env) fun _ _ => True := by
  let K : Contract := .tidy fun _ => True
  have hends : Ends (readied target value) m (fun _ => K.At m [] 0) (K.Stop m) := by
    have hstart : K.At m [] 0 m := .start ⟨hm.cells, False.elim⟩
    have hvalue : K.Yields (value.eval (some .read)) false :=
      (Contract.yields_eval value (some .read) False.elim).value (by simp)
    simp only [readied, valued, ends_bind, ends_pure]
    refine hstart.pushPending False.elim fun m hm => hm.pushPending False.elim fun m hm => ?_
    refine hm.resume hvalue fun m hm => hm.popView fun v m hm _ _ => hm.pop fun m hm _ => ?_
    exact (Contract.gives_keys target False.elim _ _ _ m hm).mono (fun _ _ h => h.1)
      fun _ _ hf => hf
  exact hends.mono (fun _ _ h => reachable_of_at hm h) fun _ _ _ => trivial

/-! ## Writes that fail -/

section Clean

variable {α β : Type} {act : Run α}

/-- Wherever the computation is run, if it stops, the environment is as it was. -/
def Clean (act : Run α) : Prop :=
  ∀ m : Machine, Ends act m (fun _ _ => True) fun _ m' => m'.env = m.env

theorem Reads.clean (h : Reads act) : Clean act :=
  fun m => (h m).mono (fun _ _ _ => trivial) fun _ _ he => he

theorem Reads.bind_clean {f : α → Run β} (h : Reads act) (hf : ∀ a, Clean (f a)) :
    Clean (act >>= f) := by
  intro m
  rw [ends_bind]
  refine (h m).mono (fun a m' he => ?_) fun _ _ he => he
  exact (hf a m').mono (fun _ _ h => h) fun _ _ he' => he'.trans he

/-- What comes after the last step that changes anything must not stop. -/
theorem Clean.bind_returns {f : α → Run β} (h : Clean act)
    (hf : ∀ a m, Ends (f a) m (fun _ _ => True) fun _ _ => False) : Clean (act >>= f) := by
  intro m
  rw [ends_bind]
  exact (h m).mono (fun a m' _ => (hf a m').mono (fun _ _ h => h) fun _ _ hf => hf.elim)
    fun _ _ he => he

theorem clean_store (l : Location) (v : Value) : Clean (store l v) := by
  intro m
  simp only [store, ends_bind, ends_inScope, ends_modify, Scoped.ends_store]
  simp

/-- The string is changed last. -/
theorem clean_writeCharacter (line : Json) (l : Location) (offset : Int) (v : Value) :
    Clean (writeCharacter line l offset v) := by
  unfold writeCharacter
  split
  · exact (reads_pure _).clean
  · refine Reads.bind_clean (fun m => rfl) fun w => ?_
    split
    · rename_i s
      refine (reads_noting _ _ _).bind_clean fun text => ?_
      split
      · exact (reads_throw _).clean
      · rename_i c more _
        have hlast : Clean (do
            if maxInt < offset then crash .outOfRange
            else
              store l.container (.string (String.ofList (writeAt s.toList offset.toNat c)))
              return Value.string c.toString) := by
          split
          · exact (reads_throw _).clean
          · exact (clean_store _ _).bind_returns fun _ _ => trivial
        cases more with
        | nil =>
          simp only [List.isEmpty_nil, Bool.not_true, Bool.false_eq_true, if_false]
          exact hlast
        | cons d ds =>
          simp only [List.isEmpty_cons, Bool.not_false, if_true]
          exact (reads_noting _ _ _).bind_clean fun _ => hlast
    · exact (reads_throw _).clean

theorem clean_writeTo (line : Json) (l? : Option Location) (v : Value) :
    Clean (writeTo line l? v) := by
  unfold writeTo
  split
  · exact (reads_pure _).clean
  · split
    · exact (clean_writeCharacter _ _ _ _).bind_returns fun _ _ => trivial
    · exact (clean_store _ _).bind_returns fun _ _ => trivial

end Clean

/-- At a place that was made a store succeeds. -/
theorem ends_store_made {e : Environment} {x : String} {keys : List (Option Key)} {l : Location}
    (he : Reachable e) (h : e.Made x keys l m.env) (v : Value) :
    Ends (store l v) m (fun _ _ => True) fun _ _ => False := by
  obtain ⟨root, e₁, c, hr, hl, hput, hm⟩ := h.cell
  have hd := (he.attained.indexed.ends_declare x).of_ok hr
  have hentered := hd.entered he
  obtain ⟨c', hset, -⟩ := Value.put?_setAt? (q := []) (x := v) hput (by rw [Value.setAt?])
  rw [List.append_nil] at hset
  rw [hl]
  exact (ends_store_written hentered.cell hentered.whole hm hset).mono (fun _ _ _ => trivial)
    fun _ _ hf => hf

/-- What a refused write leads to: no place, or a character before the start of its string. -/
def Refused (r : Except Fault (Option Location)) : Prop :=
  ∀ l, r = .ok (some l) → ∃ n, l.char? = some n ∧ n < 0

/-- Writing fails at characters only, where resolving changed nothing. -/
theorem ends_writeTo_resolved {m₁ : Machine} {root : Term} {keys : List (Option Key)}
    {l? : Option Location} (hm : Reachable m.env) (h : Resolved m.env root keys (.ok l?) m₁.env)
    (line : Json) (v : Value) :
    Ends (writeTo line l? v) m₁ (fun _ m' => Refused (.ok l?) → m'.env = m.env)
      fun _ m' => m'.env = m.env := by
  cases l? with
  | none => exact fun _ => h.kept (by simp)
  | some l =>
    cases hchar : l.char? with
    | some n =>
      have hsame : m₁.env = m.env := by
        refine h.kept ?_
        rintro _ ⟨⟩ hwhole
        cases hchar.symm.trans hwhole
      by_cases hneg : n < 0
      · simp only [writeTo, hchar, writeCharacter, if_pos hneg, ends_bind, ends_pure]
        exact fun _ => hsame
      · refine (clean_writeTo line (some l) v m₁).mono (fun _ m' _ hrefused => ?_)
          fun _ _ he => he.trans hsame
        obtain ⟨n', hn', hneg'⟩ := hrefused l rfl
        obtain rfl := Option.some.inj (hchar.symm.trans hn')
        exact absurd hneg' hneg
    | none =>
      obtain ⟨-, -, x, -, -, hmade⟩ := h.made l rfl hchar
      rw [writeTo_whole hchar, ends_bind]
      refine (ends_store_made hm hmade v).mono (fun _ m' _ hrefused => ?_)
        fun _ _ hf => hf.elim
      obtain ⟨n, hn, -⟩ := hrefused l rfl
      cases hchar.symm.trans hn

theorem ends_run {α : Type} (act : Run α) (m : Machine) :
    Ends act m (fun a t => act.outcome m = (.ok a, t)) fun f t => act.outcome m = (.error f, t) :=
  ends_iff.2 ⟨fun _ _ h => h, fun _ _ h => h⟩

theorem ends_outcome {α : Type} {act : Run α} {a : α} {m₁ : Machine}
    (h : act.outcome m = (.ok a, m₁)) :
    Ends act m (fun b t => b = a ∧ m₁ = t) fun _ _ => False := by
  have hrun : act.run.run m = (.ok a, m₁) := h
  simp [Ends, hrun]

/-- A plain assignment of what is no reference. -/
theorem eval_assign {h : Head} {op : Datum} {intent? : Option Intent} (hop : isPlain op = true)
    (hforeign : value ≠ .foreign) (hbyref : value.byref = false) (hintent : intent? ≠ some .write) :
    (Term.assign h op target value).eval intent? =
      assignBody h target value (target.eval (some .write)) (value.eval (some .read)) := by
  rw [Term.eval.eq_def]
  simp only [writable, hintent, if_false, hop, if_true, hbyref, Bool.false_eq_true, pure_bind]

/-- A plain assignment after its value and keys are evaluated: it changes nothing more if it fails
or is refused. -/
theorem ends_assign_atomic {m₁ : Machine} {h : Head} {op : Datum} {intent? : Option Intent}
    {v : Value} {levels : List Level} (hm : Reachable m.env) (ht : target.IsExpression)
    (hop : isPlain op = true) (hforeign : value ≠ .foreign) (hbyref : value.byref = false)
    (hintent : intent? ≠ some .write)
    (hready : (readied target value).outcome m = (.ok (v, levels), m₁)) :
    Ends ((Term.assign h op target value).eval intent?) m
      (fun _ m' => Refused ((resolve target.root levels).outcome m₁).1 → m'.env = m₁.env)
      fun _ m' => m'.env = m₁.env := by
  have hm₁ : Reachable m₁.env := (ends_readied_reachable hm).of_ok hready
  rw [eval_assign hop hforeign hbyref hintent]
  refine ends_assignBody ht ((ends_outcome hready).mono ?_ fun _ _ hf => hf.elim)
  rintro _ _ ⟨rfl, rfl⟩
  have hresolved := ends_resolved target.root_ne_subscript ht.root_ne_statement hm₁ levels
  have hwrite : ∀ l? m₂, (resolve target.root levels).outcome m₁ = (.ok l?, m₂) →
      Ends (writeTo h.place.line l? v) m₂
        (fun _ m' => Refused ((resolve target.root levels).outcome m₁).1 → m'.env = m₁.env)
        fun _ m' => m'.env = m₁.env := by
    intro l? m₂ hrun
    rw [hrun]
    exact ends_writeTo_resolved hm₁ (hresolved.of_ok hrun) _ v
  rw [ends_iff]
  exact ⟨fun l? m₂ hrun => hwrite l? m₂ hrun, fun f m₂ hrun => hresolved.of_error hrun⟩

end Run

/-- Resolving the target of an assignment, whatever expression it is, is all or nothing. So a plain
assignment that fails or is refused after its value and keys were evaluated changes nothing. -/
theorem resolve_atomic {m : Machine} {target : Source.Expr} {n : Node} (hm : Reachable m.env)
    (hn : target.toNode = .ok n) :
    (∀ levels r m', (resolve n.toTerm.root levels).outcome m = (r, m') →
      Resolved m.env n.toTerm.root (levels.map (·.key?)) r m'.env) ∧
    ∀ h op value intent? v levels m₁ r m', isPlain op = true → value ≠ .foreign →
      value.byref = false → intent? ≠ some .write →
      (readied n.toTerm value).outcome m = (.ok (v, levels), m₁) →
      ((Term.assign h op n.toTerm value).eval intent?).outcome m = (r, m') →
      (∀ u, r ≠ .ok u) ∨ Refused ((resolve n.toTerm.root levels).outcome m₁).1 →
      m'.env = m₁.env := by
  have ht := Source.Expr.isExpression_toNode hn
  refine ⟨fun levels r m' hrun => ?_, ?_⟩
  · have hresolved := resolved_outcome ht hm levels
    rwa [hrun] at hresolved
  · intro h op value intent? v levels m₁ r m' hop hforeign hbyref hintent hready hrun hfails
    have hends := ends_assign_atomic (h := h) hm ht hop hforeign hbyref hintent hready
    cases r with
    | ok u => exact hends.of_ok hrun (hfails.resolve_left fun hu => hu u rfl)
    | error f => exact hends.of_error hrun

/-- The target `$a['s'][]`. -/
def appendTarget : Source.Expr :=
  .append default (.subscript default (.variable default "a") (.string default "'s'"))

/-- The number five, as a term. -/
def fiveTerm : Term := .literal ⟨"number", default, false⟩ (.string "5")

/-- Where levels lead after a text was run, and whether an assignment of five to the target gets as
far as resolving it there, and whether it succeeds. -/
def attemptAfter (text : String) (target : Source.Expr) (levels : List Level) :
    Option (Option Location × Bool × Bool) := do
  let n ← (Source.tree text).toOption
  let t ← target.toNode.toOption
  let l? ← ((resolve t.toTerm.root levels).outcome (n.run .init).2).1.toOption
  let assign := Term.assign default (.string "=") t.toTerm fiveTerm
  return (l?, ((readied t.toTerm fiveTerm).outcome (n.run .init).2).1.isOk,
    ((assign.eval none).outcome (n.run .init).2).1.isOk)

/-- An element is made two levels down; an append to a string fails, and then nothing is made. -/
theorem resolve_atomic_append :
    ∃ n t v levels m₁ m₂ f, Source.tree "$a = ['s' => 'abc'];" = .ok n ∧
      appendTarget.toNode = .ok t ∧
      (∃ h name x, t.toTerm.root = .variable h name ∧ variableName name = pure x ∧
        (n.run .init).2.env.Made x [some (.str "k"), none] ⟨0, 1, [.str "k", .int 0], none⟩
          ((resolve t.toTerm.root keyThenAppend).outcome (n.run .init).2).2.env) ∧
      (readied t.toTerm fiveTerm).outcome (n.run .init).2 = (.ok (v, levels), m₁) ∧
      ((Term.assign default (.string "=") t.toTerm fiveTerm).eval none).outcome (n.run .init).2 =
        (.error f, m₂) ∧ m₂.env = m₁.env := by
  have hattempt : attemptAfter "$a = ['s' => 'abc'];" appendTarget keyThenAppend =
      some (some ⟨0, 1, [.str "k", .int 0], none⟩, true, false) := by decide +kernel
  simp only [attemptAfter, Option.bind_eq_bind, Option.bind_eq_some_iff, Option.pure_def,
    Option.some.injEq, Prod.mk.injEq] at hattempt
  obtain ⟨n, hn, t, ht, l?, hresolve, rfl, hready, hfails⟩ := hattempt
  have ht := eq_ok_of_toOption ht
  obtain ⟨hresolved, hassign⟩ := resolve_atomic (Reachable.init.run (m := .init) n) ht
  obtain ⟨⟨v, levels⟩, m₁, hready⟩ := exists_of_isOk hready
  have hmade := (hresolved keyThenAppend _ _ rfl).made _ (eq_ok_of_toOption hresolve) rfl
  rcases hrun : ((Term.assign default (.string "=") t.toTerm fiveTerm).eval none).outcome
    (n.run .init).2 with ⟨r, m₂⟩
  rw [hrun] at hfails
  cases r with
  | ok u => cases hfails
  | error f =>
    have hsame := hassign default (.string "=") fiveTerm none v levels m₁ (.error f) m₂ rfl
      (by simp [fiveTerm]) rfl (by simp) hready hrun (.inl (by simp))
    exact ⟨n, t, v, levels, m₁, m₂, f, eq_ok_of_toOption hn, ht, hmade, hready, hrun, hsame⟩

end PhpInterpreter
