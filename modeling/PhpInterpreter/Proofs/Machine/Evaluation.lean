import PhpInterpreter.Proofs.Machine.Body

/-!
Evaluation within a contract: by induction on terms, every term leaves one result. A strict contract
asks for complete terms: operands are there, variables have names, operators are known, and numbers
are given by their texts.
-/

namespace PhpInterpreter

namespace Term

mutual

/-- An expression with all its parts, or a list of operands or targets. -/
def Complete : Term → Prop
  | .literal _ d => ∀ x, d ≠ .scalar (.number x)
  | .variable _ name => name.IsName
  | .array _ iterable items => iterable = true ∧ CompleteItems items
  | .subscript _ base key => Complete base ∧ (key.isAbsent = false → Complete key)
  | .unary _ operator operand =>
    Complete operand ∧ ∃ s op, operator = .scalar (.string s) ∧ UnaryOp.ofSymbol? s = some op
  | .binary _ operator left right => Complete left ∧ Complete right ∧
    ∃ op, Run.Operator.ofDatum BinaryOp.ofSymbol? operator = .known op
  | .assign _ operator target value => Complete target ∧ Complete value ∧
    (Run.isPlain operator = false → ∃ op, Run.Operator.ofDatum Run.compoundOp? operator = .known op)
  | .echo _ iterable operands => iterable = true ∧ CompleteAll operands
  | .global _ iterable targets | .unset _ iterable targets =>
    iterable = true ∧ ∀ t ∈ targets, t.RootNamed
  | .absent | .foreign | .program .. | .statement .. | .entry .. | .other _ => False

def CompleteAll : List Term → Prop
  | [] => True
  | t :: rest => Complete t ∧ CompleteAll rest

/-- Items of an array: expressions, or values with keys that may be missing. -/
def CompleteItems : List Term → Prop
  | [] => True
  | .absent :: rest => CompleteItems rest
  | .entry _ key value :: rest =>
    (key.isAbsent = false → Complete key) ∧ Complete value ∧ CompleteItems rest
  | t :: rest => Complete t ∧ CompleteItems rest

end

/-- A term that can be evaluated for an intent. -/
def Ready (intent? : Option Intent) : Term → Prop
  | .statement _ e => e.Complete
  | .subscript h base key => Complete (.subscript h base key) ∧ intent? ≠ none
  | t => t.Complete

/-- Whether evaluation for an intent leaves a place: statements never do. -/
def leavesPlace (intent? : Option Intent) : Term → Bool
  | .statement .. => false
  | _ => intent? == some .write

theorem leavesPlace_write {t : Term} (h : ∀ h e, t ≠ .statement h e) :
    t.leavesPlace (some .write) = true := by
  cases t with
  | statement head e => exact (h head e rfl).elim
  | _ => rfl

theorem Complete.ready {t : Term} (h : t.Complete) (intent : Intent) : t.Ready (some intent) := by
  match t with
  | .subscript .. => exact ⟨h, nofun⟩
  | .statement .. => exact False.elim h
  | .absent | .foreign | .program .. | .echo .. | .global .. | .unset .. | .literal ..
  | .variable .. | .array .. | .entry .. | .unary .. | .binary .. | .assign .. | .other _ => exact h

theorem Complete.ready_none {t : Term} (h : t.Complete)
    (hsub : ∀ h base key, t ≠ .subscript h base key) : t.Ready none := by
  match t with
  | .subscript .. => exact (hsub _ _ _ rfl).elim
  | .statement .. => exact False.elim h
  | .absent | .foreign | .program .. | .echo .. | .global .. | .unset .. | .literal ..
  | .variable .. | .array .. | .entry .. | .unary .. | .binary .. | .assign .. | .other _ => exact h

theorem Complete.isAbsent_eq {t : Term} (h : t.Complete) : t.isAbsent = false := by
  refine isAbsent_of_ne ?_
  rintro rfl
  exact False.elim h

theorem Complete.leavesPlace_eq {t : Term} (h : t.Complete) (intent? : Option Intent) :
    t.leavesPlace intent? = (intent? == some .write) := by
  cases t with
  | statement => exact False.elim h
  | _ => rfl

theorem Complete.rootNamed {t : Term} (h : t.Complete) : t.RootNamed := by
  induction t using RootNamed.induct with
  | case1 _ base key ih => exact ih h.1
  | case2 _ name => exact h
  | case3 t hsub hvar => simp [RootNamed]

end Term

namespace Contract

open Run

variable {K : Contract}

/-- What is not evaluated to be written leaves a value. -/
theorem Yields.value {act : Run Unit} {t : Term} {intent? : Option Intent}
    (h : K.Yields act (t.leavesPlace intent?)) (hread : intent? ≠ some .write) :
    K.Yields act false := by
  have hvalue : t.leavesPlace intent? = false := by
    cases t with
    | statement => rfl
    | _ => simpa [Term.leavesPlace] using hread
  rwa [hvalue] at h

theorem yields_breach (hs : ¬ K.strict) (b : Breach) : K.Yields (Run.breach b) false :=
  fun _ _ _ _ hm => hm.breach hs b

theorem Levels.concat {levels : List Level} {h : Head} {base : Term} {key? : Option Key}
    (hlevels : K.Levels levels) (hkey : ∀ k, key? = some k → K.key k) :
    K.Levels (levels ++ [levelOf h base key?]) := by
  intro level hin
  rcases List.mem_append.1 hin with hin | hin
  · exact hlevels level hin
  · obtain rfl := List.mem_singleton.1 hin
    exact hkey

/-- A subscript to be written: the keys from the root outwards, then the root, then down again. -/
theorem yields_writeSubscript {h : Head} {base key : Term} {evalKeys : Run (List Level)}
    {evalKey : Run Unit} {evalRoot : Run (Option Location)}
    (hkeys : K.Gives evalKeys fun levels _ => K.Levels levels)
    (hkey : key.isAbsent = false → K.Yields evalKey false) (hroot : K.Gives evalRoot K.Place?) :
    K.Yields (do
      let levels ← evalKeys
      let key? ← keyOf h key evalKey
      let root? ← evalRoot
      pushLocation (← descendAll (levels ++ [levelOf h base key?]) root?)) true := by
  intro m₀ frame n m hm
  simp only [ends_bind, ends_pushLocation]
  refine (hkeys m₀ frame n m hm).mono ?_ fun _ _ hf => hf
  rintro levels m ⟨hm, hlevels⟩
  refine hm.keyOf hkey fun key? m hm hk => ?_
  refine (hroot m₀ frame n m hm).mono ?_ fun _ _ hf => hf
  rintro root? m ⟨hm, hroot⟩
  exact hm.descendAll hroot (hlevels.concat hk) fun l? m hm hl => hm.has ⟨rfl, hl⟩

/-- The rest of the items of an array literal, put after what is there already. -/
def GivesItems (K : Contract) (rest : List Term) : Prop :=
  ∀ u, K.value (.array u) → K.Gives (Term.evalItems rest u) fun u _ => K.value (.array u)

/-- An item without a key is appended. -/
theorem gives_plainItem {item : Term} {rest : List Term} {u : Table Value}
    (habsent : item ≠ .absent) (hforeign : item ≠ .foreign)
    (hentry : ∀ h key value, item ≠ .entry h key value) (hu : K.value (.array u))
    (hitem : K.Yields (item.eval (some .read)) false) (hrest : K.GivesItems rest) :
    K.Gives (Term.evalItems (item :: rest) u) fun u _ => K.value (.array u) := by
  have hpresent := Term.isAbsent_of_ne habsent
  intro m₀ frame n m hm
  rw [Term.evalItems]
  · split
    · exact hm.fatal _
    · simp only [ends_bind]
      refine hm.pushPending (fun _ => hpresent) fun m hm => hm.resume hitem fun m hm => ?_
      refine hm.popView fun v m hm _ hv => ?_
      exact hrest _ (value_append hu (value_defined hv.read)) m₀ frame n m hm
  · exact habsent
  · exact hforeign
  · exact hentry

/-- An entry is set under its key, if it has one. -/
theorem gives_entry {h : Head} {key value : Term} {rest : List Term} {u : Table Value}
    (hu : K.value (.array u)) (hpresent : K.strict → value.isAbsent = false)
    (hkey : key.isAbsent = false → K.Yields (key.eval (some .read)) false)
    (hvalue : K.Yields (value.eval (some .read)) false) (hrest : K.GivesItems rest) :
    K.Gives (Term.evalItems (.entry h key value :: rest) u) fun u _ => K.value (.array u) := by
  intro m₀ frame n m hm
  rw [Term.evalItems.eq_def]
  dsimp only
  split
  · exact hm.fatal _
  · simp only [ends_bind]
    refine hm.pushPending hpresent fun m hm => ?_
    split
    · simp only [ends_bind]
      refine hm.resume hvalue fun m hm => hm.popView fun v m hm _ hv => ?_
      exact hrest _ (value_append hu (value_defined hv.read)) m₀ frame n m hm
    · rename_i habsent
      have hkeyed := Term.isAbsent_of_ne habsent
      simp only [ends_bind]
      refine hm.pushPending (fun _ => hkeyed) fun m hm => hm.resume (hkey hkeyed) fun m hm => ?_
      refine hm.popView fun k m hm _ hkey => ?_
      refine hm.noting (notes_toKey hkey.read) _ _ fun k m hm _ hk => ?_
      refine hm.resume hvalue fun m hm => hm.popView fun v m hm _ hv => ?_
      exact hrest _ (K.set hu (.inl hk) (value_defined hv.read)) m₀ frame n m hm

/-- Statements that go through a list leave null. -/
theorem yields_listed {intent? : Option Intent} {iterable : Bool} {act : Run Unit}
    (hlist : K.strict → iterable = true) (hact : K.Gives act fun _ _ => True) :
    K.Yields (do
      writable intent?
      listed iterable
      act
      pushValue .null) (intent? == some .write) := by
  refine yields_writable fun m₀ frame n m hm => ?_
  simp only [ends_bind, ends_pushValue]
  refine hm.listed hlist ((hact m₀ frame n m hm).mono ?_ fun _ _ hf => hf)
  rintro - m ⟨hm, -⟩
  exact hm.hasValue (.inr K.null)

-- One statement for each function of the evaluator; the recursion is theirs, over terms.
mutual

theorem yields_eval (t : Term) (intent? : Option Intent) (hs : K.strict → t.Ready intent?) :
    K.Yields (t.eval intent?) (t.leavesPlace intent?) := by
  match t with
  | .absent | .foreign => exact fun m₀ frame n m hm => hm.crash (fun h => hs h) _
  | .statement h e =>
    rw [Term.eval]
    have hc : K.strict → e.Complete := hs
    -- Without intent only assignments and variables are evaluated, never subscripts.
    refine yields_statement (fun _ => ?_) (fun hsub => ?_) fun h => ?_
    · exact (yields_eval e (some .read) fun h => (hc h).ready .read).value nofun
    · exact (yields_eval e none fun h => (hc h).ready_none hsub).value nofun
    · constructor <;> rintro rfl <;> simpa [Term.Complete] using hc h
  | .literal h d =>
    rw [Term.eval]
    refine yields_writable fun m₀ frame n m hm => ?_
    simp only [ends_bind, ends_pushValue]
    exact hm.literalValue hs fun v hv => hm.hasValue (.inr hv)
  | .variable h name =>
    rw [Term.eval]
    exact yields_variable hs
  | .array h iterable items =>
    rw [Term.eval]
    have hc : K.strict → iterable = true ∧ Term.CompleteItems items := hs
    refine yields_writable fun m₀ frame n m hm => ?_
    simp only [ends_bind, ends_pushValue]
    refine hm.listed (fun h => (hc h).1) ?_
    refine (gives_items items (fun h => (hc h).2) .empty K.empty m₀ frame n m hm).mono ?_
      fun _ _ hf => hf
    rintro u m ⟨hm, hu⟩
    exact hm.hasValue (.inr hu)
  | .subscript h base key =>
    have hbase : K.strict → base.Complete := fun h => (hs h).1.1
    have hkey : key.isAbsent = false → K.Yields (key.eval (some .read)) false := fun hpresent =>
      (yields_eval key (some .read) fun h => ((hs h).1.2 hpresent).ready .read).value nofun
    rw [Term.eval.eq_def]
    match intent? with
    | none => exact yields_breach (fun h => (hs h).2 rfl) _
    | some .write =>
      exact yields_writeSubscript (gives_keys base hbase) hkey (gives_root base hbase)
    | some .read | some .isset =>
      dsimp only
      split
      · exact fun m₀ frame n m hm => hm.fatal _
      · rename_i habsent
        have hpresent := Term.isAbsent_of_ne habsent
        refine yields_readSubscript ?_ (hkey hpresent) fun h => ⟨(hbase h).isAbsent_eq, hpresent⟩
        refine (yields_eval base _ fun h => (hbase h).ready _).value ?_
        decide
  | .unary h op operand =>
    rw [Term.eval]
    refine yields_writable (yields_unary ?_ fun h => ⟨(hs h).1.isAbsent_eq, (hs h).2⟩)
    exact (yields_eval operand (some .read) fun h => (hs h).1.ready .read).value nofun
  | .binary h op left right =>
    rw [Term.eval]
    refine yields_writable (yields_binary ?_ ?_ ?_ fun h =>
      ⟨(hs h).1.isAbsent_eq, (hs h).2.1.isAbsent_eq, (hs h).2.2⟩)
    · exact (yields_eval left (some .read) fun h => (hs h).1.ready .read).value nofun
    · exact (yields_eval left (some .isset) fun h => (hs h).1.ready .isset).value nofun
    · exact (yields_eval right (some .read) fun h => (hs h).2.1.ready .read).value nofun
  | .assign h op target value =>
    have htarget : K.strict → target.Complete := fun h => (hs h).1
    have hvalue : K.strict → value.Complete := fun h => (hs h).2.1
    have hread : K.Yields (value.eval (some .read)) false :=
      (yields_eval value (some .read) fun h => (hvalue h).ready .read).value nofun
    rw [Term.eval.eq_def]
    refine yields_writable ?_
    -- Plain assignments come first, those of references among them.
    split
    · split
      · exact fun m₀ frame n m hm => hm.crash (fun h => by simpa [Term.Complete] using hvalue h) _
      · split
        · refine yields_reference (fun hother => ?_) fun h => ?_
          · rw [← Term.leavesPlace_write hother]
            exact yields_eval value (some .write) fun h => (hvalue h).ready .write
          · rintro head name rfl
            exact htarget h
        · refine yields_assign (yields_eval target (some .write) fun h => (htarget h).ready .write)
            hread fun h => ⟨?_, (htarget h).isAbsent_eq, (hvalue h).isAbsent_eq⟩
          exact (htarget h).leavesPlace_eq _
    · rename_i hplain
      have hop := fun h => (hs h).2.2 (by simpa using hplain)
      split
      · rename_i hop'
        exact fun m₀ frame n m hm => hm.crash (fun h => by simp_all) _
      · exact yields_breach (fun h => by simp_all) _
      · exact yields_compound (gives_keys target htarget) (gives_root target htarget) hread
          fun h => ⟨(htarget h).rootNamed, (hvalue h).isAbsent_eq⟩
  | .echo h iterable operands =>
    rw [Term.eval]
    exact yields_listed (fun h => (hs h).1) (gives_echo operands fun h => (hs h).2)
  | .global h iterable targets =>
    rw [Term.eval]
    exact yields_listed (fun h => (hs h).1) (gives_globalNames fun h => (hs h).2)
  | .unset h iterable targets =>
    rw [Term.eval]
    exact yields_listed (fun h => (hs h).1) (gives_unsetNames fun h => (hs h).2)
  | .program h _ _ | .entry h _ _ | .other h =>
    rw [Term.eval]
    have hlenient : ¬ K.strict := fun h => by simpa [Term.Ready, Term.Complete] using hs h
    exact yields_writable (yields_breach hlenient _)

theorem gives_keys (t : Term) (hs : K.strict → t.Complete) :
    K.Gives t.evalKeys fun levels _ => K.Levels levels := by
  match t with
  | .subscript h base key =>
    intro m₀ frame n m hm
    have hkey : key.isAbsent = false → K.Yields (key.eval (some .read)) false := fun hpresent =>
      (yields_eval key (some .read) fun h => ((hs h).2 hpresent).ready .read).value nofun
    simp only [Term.evalKeys, ends_bind, ends_pure]
    refine (gives_keys base (fun h => (hs h).1) m₀ frame n m hm).mono ?_ fun _ _ hf => hf
    rintro levels m ⟨hm, hlevels⟩
    exact hm.keyOf hkey fun key? m hm hk => ⟨hm, hlevels.concat hk⟩
  | .absent | .foreign | .program .. | .statement .. | .echo .. | .global .. | .unset ..
  | .literal .. | .variable .. | .array .. | .entry .. | .unary .. | .binary .. | .assign ..
  | .other _ => exact fun m₀ frame n m hm => ⟨hm, nofun⟩

theorem gives_root (t : Term) (hs : K.strict → t.Complete) : K.Gives t.evalRoot K.Place? := by
  match t with
  | .subscript h base key =>
    rw [Term.evalRoot]
    exact gives_root base fun h => (hs h).1
  | .absent => exact fun m₀ frame n m hm => hm.breach (fun h => hs h) _
  | .foreign => exact fun m₀ frame n m hm => hm.crash (fun h => hs h) _
  | .variable h name =>
    intro m₀ frame n m hm
    simp only [Term.evalRoot, ends_bind]
    refine ends_located_stop _ ((yields_variable hs m₀ frame n m hm).mono ?_ fun _ _ hf => hf)
    rintro - m hm
    exact hm.popLocation fun l? m hm hl => ⟨hm, hl⟩
  | .statement h e =>
    intro m₀ frame n m hm
    -- No complete target has a statement for its root.
    have hlenient : ¬ K.strict := fun h => hs h
    have hbody : K.Yields (statementBody e fun i => e.eval i) false := by
      refine yields_statement (fun _ => ?_) (fun _ => ?_) fun h => (hlenient h).elim
      · exact (yields_eval e (some .read) fun h => (hlenient h).elim).value nofun
      · exact (yields_eval e none fun h => (hlenient h).elim).value nofun
    simp only [Term.evalRoot, ends_bind]
    refine ends_located_stop _ ((hbody m₀ frame n m hm).mono ?_ fun _ _ hf => hf)
    rintro - m hm
    exact hm.popLocation_value hlenient
  | .program .. | .echo .. | .global .. | .unset .. | .literal .. | .array .. | .entry ..
  | .unary .. | .binary .. | .assign .. | .other _ =>
    intro m₀ frame n m hm
    simp only [Term.evalRoot, ends_bind]
    exact ends_within_stop _ (hm.fatal _)

theorem gives_items (items : List Term) (hs : K.strict → Term.CompleteItems items) :
    K.GivesItems items := by
  match items with
  | [] => exact fun u hu m₀ frame n m hm => ⟨hm, hu⟩
  | item :: rest =>
    have hitem : (K.strict → item.Ready (some .read)) → K.Yields (item.eval (some .read)) false :=
      fun h => (yields_eval item (some .read) h).value nofun
    intro u hu
    cases item with
    | absent =>
      rw [Term.evalItems]
      exact gives_items rest hs u hu
    | foreign => exact fun m₀ frame n m hm => hm.crash (fun h => (hs h).1) _
    | entry h key value =>
      refine gives_entry hu (fun h => (hs h).2.1.isAbsent_eq) (fun hkeyed => ?_) ?_
        (gives_items rest fun h => (hs h).2.2)
      · exact (yields_eval key (some .read) fun h => ((hs h).1 hkeyed).ready .read).value nofun
      · exact (yields_eval value (some .read) fun h => (hs h).2.1.ready .read).value nofun
    | _ =>
      exact gives_plainItem nofun nofun nofun hu (hitem fun h => (hs h).1.ready .read)
        (gives_items rest fun h => (hs h).2)

theorem gives_echo (operands : List Term) (hs : K.strict → Term.CompleteAll operands) :
    K.Gives (Term.evalEcho operands) fun _ _ => True := by
  match operands with
  | [] => exact fun m₀ frame n m hm => ⟨hm, trivial⟩
  | e :: rest =>
    have hoperand : K.Yields (e.eval (some .read)) false :=
      (yields_eval e (some .read) fun h => (hs h).1.ready .read).value nofun
    intro m₀ frame n m hm
    simp only [Term.evalEcho, ends_bind, ends_print]
    refine hm.pushPending (fun h => (hs h).1.isAbsent_eq) fun m hm => ?_
    refine hm.resume hoperand fun m hm => ?_
    refine hm.popView fun v m hm _ _ => hm.noting (notes_toText _) _ _ fun text m hm _ _ => ?_
    exact gives_echo rest (fun h => (hs h).2) m₀ frame n _ ⟨hm.along, hm.env⟩

end

end Contract

end PhpInterpreter
