import PhpInterpreter.Proofs.Machine.Landing
import PhpInterpreter.Proofs.Machine.Operand

/-!
Assignment with an operator, and what it stands for. `$t += e` resolves its target and applies the
operator to what is there; `$t = $t + e` reads its target, applies the operator, and resolves the
target only then. Without assignments in the keys and in the value, both end alike, unless reading
stops because it cannot tell the number of a key under which there is nothing.
-/

namespace PhpInterpreter

open Run Environment

namespace Run

variable {α : Type} {e e' : Environment} {m : Machine}

/-! ## Computations that agree -/

/-- Two runs end alike: both return the same and leave the same machine, up to what was logged; or
both stop. -/
inductive EndAlike : Except Fault α × Machine → Except Fault α × Machine → Prop
  | returned {a : α} {m : Machine} (log : List Diagnostic) :
      EndAlike (.ok a, m) (.ok a, { m with log := log })
  | stopped {f f' : Fault} {m m' : Machine} : EndAlike (.error f, m) (.error f', m')

/-- In the environment `e` both computations come to the same outcome, or both stop. -/
def Agree (e : Environment) (act act' : Run α) : Prop :=
  (∃ a items e' ws, Returns e act a items e' ws ∧ Returns e act' a items e' ws) ∨
    Stops e act (fun _ => True) ∧ Stops e act' fun _ => True

/-- Computations that end alike leave the same items. -/
theorem EndAlike.items_eq {a a' : α} {act act' : Run α} {items items' : List Item}
    {e₁ e₂ : Environment} {ws ws' : List Write}
    (h : EndAlike (act.outcome m) (act'.outcome m)) (hact : Returns m.env act a items e₁ ws)
    (hact' : Returns m.env act' a' items' e₂ ws') : items = items' := by
  obtain ⟨said, hrun⟩ := hact m rfl
  obtain ⟨said', hrun'⟩ := hact' m rfl
  have hstacks : ∀ {b b' : α} {m₁ m₂ : Machine}, EndAlike (.ok b, m₁) (.ok b', m₂) →
      m₁.stack = m₂.stack := by
    rintro _ _ _ _ ⟨⟩
    rfl
  rw [hrun, hrun'] at h
  exact (List.append_inj' (hstacks h) (by simp)).1

theorem Agree.endAlike {act act' : Run α} (h : Agree m.env act act') :
    EndAlike (act.outcome m) (act'.outcome m) := by
  rcases h with ⟨a, items, e', ws, hact, hact'⟩ | ⟨hact, hact'⟩
  · obtain ⟨said, hrun⟩ := hact m rfl
    obtain ⟨said', hrun'⟩ := hact' m rfl
    rw [hrun, hrun']
    exact .returned (m.log ++ said')
  · obtain ⟨_, _, hrun, -⟩ := hact m rfl
    obtain ⟨_, _, hrun', -⟩ := hact' m rfl
    rw [hrun, hrun']
    exact .stopped

/-! ## Operators -/

section Operators

variable {h : Head} {op : BinaryOp} {left right target value : Term} {levels : List Level}
  {evalLeft : Option Intent → Run Unit} {evalRight : Run Unit} {E : Fault → Prop}
  {P : View → Prop} {Q : Outcome Unit} {v w : View} {x y : Value} {s : String}

/-- An operator that needs both operands. -/
theorem Gives.binary (hop : op ∉ BinaryOp.deciding)
    (habsent : left.isAbsent = true ∨ right.isAbsent = true → E (.breach .missingOperand))
    (hleft : Gives e (Run.within left (evalLeft (some .read))) (fun l =>
      Gives e (Run.within right evalRight) (fun r =>
        Finds e (noting h.place.line false (Value.applyBinary op l.value r.value))
          (fun v => P (.fresh v)) E) E) E) :
    Gives e (binaryBody h (.string op.symbol) left right evalLeft evalRight) P E := by
  have hknown : Operator.ofDatum BinaryOp.ofSymbol? (.string op.symbol) = .known op := by
    simp [Operator.ofDatum, Datum.string, BinaryOp.ofSymbol?_symbol]
  have hcoalesce : op ≠ .coalesce := by
    rintro rfl
    simp [BinaryOp.deciding] at hop
  have hintent : leftIntent (.known op) = some .read := by
    cases op <;> first | rfl | contradiction
  rw [← hintent] at hleft
  unfold binaryBody
  rw [pushPending_eq right]
  split
  · exact settles_throw (habsent (.inr ‹_›))
  simp only [hknown]
  refine Gives.beneath (fun h => habsent (.inl h)) (hleft.mono (fun l _ hright => ?_)
    fun _ hf => hf)
  rw [Value.shortCircuit_eq_none hop]
  dsimp only
  rw [push_holding_resume]
  refine Gives.holding (hright.mono (fun r _ hr => ?_) fun _ hf => hf)
  rw [if_neg hcoalesce]
  exact Finds.bind (hr.mono (fun v _ hv => gives_pushView hv) fun _ hf => hf)

/-- What is found where the target is resolved, and the value that followed the writes on the way
there, give the operator what it gets from reading the target and from the value. -/
theorem applyBinary_resolved {l? : Option Location} {ws : List Write}
    (hop : compoundOp? s = some op) (hcoalesce : op ≠ .coalesce) (hlands : Lands e y l? e' ws)
    (hx : x.defined = y.defined) (w : View) :
    Value.applyBinary op ((l?.map e'.load).getD .null) (w.followAll ws).value =
      Value.applyBinary op x w.value := by
  have hleft : Value.applyBinary op ((l?.map e'.load).getD .null) (w.followAll ws).value =
      Value.applyBinary op x (w.followAll ws).value := by
    rw [Value.applyBinary, Value.applyBinary, hlands.shown, hx]
  rw [hleft]
  by_cases hnull : x.defined = .null
  -- Null cannot be combined with an array, whatever was written into it.
  · rcases w.stays_followAll ws with hsame | ⟨-, t, u, ht, hu⟩
    · rw [hsame]
    · rw [ht, hu]
      rw [Value.applyBinary, Value.applyBinary, hnull]
      exact applyBinary_null_array hop hcoalesce u t
  · rw [hlands.writes_nil (hx ▸ hnull), View.followAll_nil]
    rfl

/-- The keys of a target are evaluated; if it can be resolved under them, it can be read, and what
is read is what is found there. Only a number that cannot be told stops the reading alone. -/
theorem place_cases (ht : target.Chain) (hkeyed : target.Keyed) (e : Environment) :
    Stops e target.evalKeys (fun _ => True) ∨ ∃ levels, Returns e target.evalKeys levels [] e [] ∧
      (Stops e (resolve target.root levels) (fun _ => True) ∨
        (∃ level ∈ levels, level.Unwritten) ∧
          Stops e (target.eval (some .read)) (· = .crash .digitLimit) ∨
        ∃ x y l? e' ws, Returns e (target.eval (some .read)) () [.value x] e [] ∧
          x.value.defined = y.defined ∧ Returns e (resolve target.root levels) l? [] e' ws ∧
          Reaches e target y l? e' ws) := by
  rcases ht.sees (by decide : Intent.read ≠ .write) e with ⟨hstops, -⟩ | ⟨levels, hkeys, hsees⟩
  · exact .inl hstops
  refine .inr ⟨levels, hkeys, ?_⟩
  rcases resolve_cases ht hkeyed hkeys with ⟨root, hroot, hplace⟩ | ⟨-, hstops⟩
  · rcases hplace with ⟨l?, _, e', ws, hrun, rfl, y, hy, hreaches⟩ | hstops
    · rcases hsees with ⟨root', hroot', hread⟩ | ⟨hstops, -⟩ | ⟨hstops, -⟩
      · obtain rfl := hroot.eq hroot'
        rcases gives_iff.1 hread with ⟨x, hx, -, z, hz, hdefined⟩ | hstops
        · obtain rfl := Except.ok.inj (hy.symm.trans hz)
          exact .inr (.inr ⟨x, y, l?, e', ws, hx, hdefined, hrun, hreaches⟩)
        · obtain ⟨_, hstuck⟩ := hstops.exists_fault
          exact .inr (.inl ⟨(hstuck.untold hy).2, hstops.mono fun _ hf => (hf.untold hy).1⟩)
      · exact absurd hstops hroot.not_stops
      · exact absurd hstops hroot.not_stops
    · exact .inl hstops
  · exact .inl hstops

theorem Returns.within {act : Run Unit} {items : List Item} {ws : List Write} (t : Term)
    (h : Returns e act () items e' ws) : Returns e (Run.within t act) () items e' ws :=
  Settles.returns (Settles.within (h.settles ⟨rfl, rfl, rfl, rfl⟩) (fun _ _ hf => hf) t)

theorem Returns.present {t : Term} {i? : Option Intent}
    (h : Returns e (Run.within t (t.eval i?)) () [.value v] e []) : t.isAbsent = false := by
  cases t with
  | absent => exact absurd (stops_throw trivial) (h.not_stops (E := fun _ => True))
  | _ => rfl

/-! ## Assignments -/

/-- How an assignment ends after its value: the result that is made of the value is written where
the target was resolved. -/
def Completes (result : Value → Noting Value) (l? : Option Location) (e' : Environment)
    (ws : List Write) (Q : Outcome Unit) (E : Fault → Prop) (v : View) : Prop :=
  (∃ r, (∀ e line quiet, Returns e (noting line quiet (result v.value)) r [] e []) ∧
    ∀ line, Settles e' (writeTo line l? r.defined >>= pushView)
      (fun a items e'' ws' => Q a items e'' (ws ++ ws')) E) ∨
  ∀ e line quiet, Stops e (noting line quiet (result v.value)) E

theorem Completes.settles {result : Value → Noting Value} {l? : Option Location} {ws : List Write}
    (hv : Completes result l? e' ws Q E v) (e : Environment) (line line' : Json) :
    Finds e (noting line false (result v.value)) (fun r =>
      Settles e' (writeTo line' l? r.defined >>= pushView)
        (fun a items e'' ws' => Q a items e'' (ws ++ ws')) E) E := by
  rcases hv with ⟨r, hr, hwrite⟩ | hstops
  · exact (hr _ _ _).finds (hwrite _)
  · exact (hstops _ _ _).settles

/-- The result is there, and its write returns. -/
theorem completes_of_returns {result : Value → Noting Value} {r : Value} {l? : Option Location}
    {e'' : Environment} {ws ws' : List Write}
    (hr : ∀ e line quiet, Returns e (noting line quiet (result v.value)) r [] e [])
    (hwrite : ∀ line, Returns e' (writeTo line l? r.defined) w [] e'' ws') :
    Completes result l? e' ws
      (fun a items e₁ ws₁ => a = () ∧ items = [.value w] ∧ e₁ = e'' ∧ ws₁ = ws ++ ws')
      (fun _ => False) v :=
  .inl ⟨r, hr, fun line => ((hwrite line).bind (returns_pushView w)).settles
    ⟨rfl, rfl, rfl, by rw [List.append_nil]⟩⟩

/-- Computations agree that evaluate the same value and end alike after it. -/
theorem agree_of_completes {act act' : Run Unit} {result : Value → Noting Value}
    {l? : Option Location} {ws : List Write}
    (hvalue : Shows e (Run.within value (value.eval (some .read))))
    (hact : ∀ (Q : Outcome Unit) (E : Fault → Prop), (∀ f p, E f → E (f.locate p)) →
      (value.isAbsent = true → E (.breach .missingOperand)) →
      Gives e (Run.within value (value.eval (some .read))) (Completes result l? e' ws Q E) E →
      Settles e act Q E ∧ Settles e act' Q E) : Agree e act act' := by
  have hstops : Gives e (Run.within value (value.eval (some .read)))
      (Completes result l? e' ws (fun _ _ _ _ => False) fun _ => True) (fun _ => True) →
      Agree e act act' := by
    intro h
    obtain ⟨hleft, hright⟩ := hact _ _ (fun _ _ hf => hf) (fun _ => trivial) h
    exact .inr ⟨.of_settles hleft, .of_settles hright⟩
  rcases gives_iff.1 hvalue with ⟨v, hv, -⟩ | hnone
  · rcases noting_cases (result v.value) with ⟨r, hr⟩ | hnone
    · rcases writeTo_cases e' l? r.defined with ⟨w, e'', ws', hwrite⟩ | hnone
      · obtain ⟨hleft, hright⟩ := hact _ _ (fun _ _ hf => hf) (by simp [hv.present])
          (gives_iff.2 (.inl ⟨v, hv, completes_of_returns hr hwrite⟩))
        exact .inl ⟨(), [.value w], e'', ws ++ ws', hleft.returns, hright.returns⟩
      · exact hstops (gives_iff.2 (.inl ⟨v, hv, .inl ⟨r, hr, fun line =>
          (hnone line).bind.settles⟩⟩))
    · exact hstops (gives_iff.2 (.inl ⟨v, hv, .inr hnone⟩))
  · exact hstops (.inr hnone)

/-- An assignment of an operator's result to its left operand: both operands are evaluated, then the
target is resolved. -/
theorem Settles.operands {hb : Head} (hop : op ∉ BinaryOp.deciding) (ht : target.Chain)
    (hE : ∀ f p, E f → E (f.locate p))
    (habsent : value.isAbsent = true → E (.breach .missingOperand))
    (hleft : Gives e (Run.within target (target.eval (some .read))) (fun l =>
      Gives e (Run.within value (value.eval (some .read))) (fun r =>
        Finds e (noting hb.place.line false (Value.applyBinary op l.value r.value)) (fun v =>
          Settles e (target.evalKeys >>= resolve target.root) (fun l? items e' ws => items = [] ∧
            Settles e' (writeTo h.place.line l? v.defined >>= pushView)
              (fun a items e'' ws' => Q a items e'' (ws ++ ws')) E) E) E) E) E) :
    Settles e (assignBody h target (.binary hb (.string op.symbol) target value)
      (target.eval (some .write)) ((Term.binary hb (.string op.symbol) target value).eval
        (some .read))) Q E := by
  refine Settles.assign ht hE (by simp [Term.isAbsent]) (Settles.within ?_ hE _)
  rw [Term.eval]
  exact Settles.writable (by decide)
    (Gives.binary hop (by simpa [ht.isAbsent] using habsent) hleft)

/-- The operator's result is written where the target is resolved. -/
theorem Settles.expansion {hb : Head} {ws : List Write} {l? : Option Location}
    (hop : op ∉ BinaryOp.deciding) (ht : target.Chain)
    (hkeys : Returns e target.evalKeys levels [] e [])
    (hread : Returns e (target.eval (some .read)) () [.value w] e [])
    (hplace : Returns e (resolve target.root levels) l? [] e' ws)
    (hE : ∀ f p, E f → E (f.locate p))
    (habsent : value.isAbsent = true → E (.breach .missingOperand))
    (hvalue : Gives e (Run.within value (value.eval (some .read)))
      (Completes (Value.applyBinary op w.value) l? e' ws Q E) E) :
    Settles e (assignBody h target (.binary hb (.string op.symbol) target value)
      (target.eval (some .write)) ((Term.binary hb (.string op.symbol) target value).eval
        (some .read))) Q E := by
  refine Settles.operands hop ht hE habsent ?_
  refine gives_iff.2 (.inl ⟨w, hread.within target, hvalue.mono (fun v _ hv => ?_) fun _ hf => hf⟩)
  refine (hv.settles e _ h.place.line).mono (fun r _ hwrite => ?_) fun _ hf => hf
  exact Finds.bind (hkeys.finds (hplace.settles ⟨rfl, hwrite⟩))

/-- The assignment stops where its left operand cannot be read. -/
theorem stops_expansion {hb : Head} (hop : op ∉ BinaryOp.deciding) (ht : target.Chain)
    (hE : ∀ f p, E f → E (f.locate p))
    (habsent : value.isAbsent = true → E (.breach .missingOperand))
    (hread : Stops e (target.eval (some .read)) E) :
    Stops e (assignBody h target (.binary hb (.string op.symbol) target value)
      (target.eval (some .write)) ((Term.binary hb (.string op.symbol) target value).eval
        (some .read))) E := by
  have hleft : Gives e (Run.within target (target.eval (some .read))) (fun _ => False) E :=
    Settles.within hread.settles hE target
  refine Stops.of_settles (Settles.operands hop ht hE habsent ?_)
  exact hleft.mono (fun _ _ hnone => hnone.elim) fun _ hf => hf

/-- An assignment with an operator, which is applied to what is found and to the value after the
writes on the way there. -/
theorem Settles.resolved {ws : List Write} {l? : Option Location} {result : Value → Noting Value}
    (hkeys : Returns e target.evalKeys levels [] e [])
    (hstanding : Returns e (standing op target levels) none [] e [])
    (hplace : Returns e (resolve target.root levels) l? [] e' ws)
    (habsent : value.isAbsent = true → E (.breach .missingOperand))
    (hresult : ∀ v, Returns e (Run.within value (value.eval (some .read))) () [.value v] e [] →
      Value.applyBinary op ((l?.map e'.load).getD .null) (v.followAll ws).value = result v.value)
    (hvalue : Gives e (Run.within value (value.eval (some .read)))
      (Completes result l? e' ws Q E) E) :
    Settles e (compoundBody h op target value target.evalKeys target.evalRoot
      (value.eval (some .read))) Q E := by
  refine Settles.compound hkeys hstanding habsent (hvalue.mono (fun v hrun hv => ?_) fun _ hf => hf)
  refine Settles.combine (hplace.settles ⟨rfl, ?_⟩)
  have hload : Returns e' (loadOrNull l?) ((l?.map e'.load).getD .null) [] e' [] := by
    cases l? with
    | none => exact returns_iff.2 (finds_pure rfl)
    | some l => exact returns_iff.2 (finds_load rfl)
  refine Finds.bind (hload.finds ?_)
  rw [hresult v hrun]
  exact Finds.bind (hv.settles e' _ _)

/-- Without assignments in its parts, an assignment with an operator does what its expansion does,
if the expansion can read its target. -/
theorem agree_expansion {h' hb : Head} (hop : compoundOp? s = some op) (hcoalesce : op ≠ .coalesce)
    (ht : target.Chain) (hkeyed : target.Keyed) (hvalue : value.ReadOnly) (e : Environment) :
    Agree e
      (compoundBody h op target value target.evalKeys target.evalRoot (value.eval (some .read)))
      (assignBody h' target (.binary hb (.string op.symbol) target value)
        (target.eval (some .write)) ((Term.binary hb (.string op.symbol) target value).eval
          (some .read))) ∨
    (∃ levels, Returns e target.evalKeys levels [] e [] ∧ ∃ level ∈ levels, level.Unwritten) ∧
      Stops e (target.eval (some .read)) (· = .crash .digitLimit) ∧
      Stops e (assignBody h' target (.binary hb (.string op.symbol) target value)
        (target.eval (some .write)) ((Term.binary hb (.string op.symbol) target value).eval
          (some .read))) (· = .crash .digitLimit) := by
  have hdeciding : op ∉ BinaryOp.deciding := by
    rcases compoundOp?_cases hop with rfl | rfl | harith
    · contradiction
    · decide
    · exact (by decide : ∀ op ∈ BinaryOp.arithmetic, op ∉ BinaryOp.deciding) op harith
  have hstanding : ∀ levels, Returns e (standing op target levels) none [] e [] := by
    intro levels
    rw [standing, if_neg hcoalesce]
    exact returns_iff.2 (finds_pure rfl)
  have hshows := (Term.shows_eval e value .read (by decide) hvalue).within value
  have hbinary := (Term.shows_eval e (.binary hb (.string op.symbol) target value) .read (by decide)
    ⟨ht.readOnly, hvalue⟩).within (.binary hb (.string op.symbol) target value)
  -- If there is nowhere to write to, both stop, whatever the operator makes of the value.
  rcases place_cases ht hkeyed e with hstops | ⟨levels, hkeys, hstops | ⟨hlevel, hread⟩ |
    ⟨x, y, l?, e', ws, hread, hx, hplace, _, _, _, _, e₁, -, -, -, hlands⟩⟩
  · exact .inl (.inr ⟨hstops.bind, stops_assign ht hbinary hstops.bind⟩)
  · exact .inl (.inr ⟨stops_compound hkeys (hstanding levels) hshows hstops,
      stops_assign ht hbinary (hkeys.bind_stops hstops)⟩)
  · cases habsent : value.isAbsent with
    | true =>
      obtain rfl := Term.eq_absent habsent
      refine .inl (.inr ⟨Stops.of_settles (Settles.compound hkeys (hstanding levels)
        (fun _ => trivial) (settles_throw trivial)), ?_⟩)
      exact stops_expansion hdeciding ht (fun _ _ hf => hf) (fun _ => trivial)
        (hread.mono fun _ _ => trivial)
    | false =>
      refine .inr ⟨⟨levels, hkeys, hlevel⟩, hread, ?_⟩
      refine stops_expansion hdeciding ht ?_ (by simp [habsent]) hread
      rintro _ p rfl
      rfl
  exact .inl (agree_of_completes hshows fun Q E hE habsent hvalue =>
    ⟨Settles.resolved hkeys (hstanding levels) hplace habsent
        (fun v _ => applyBinary_resolved hop hcoalesce hlands hx v) hvalue,
      Settles.expansion hdeciding ht hkeys hread hplace hE habsent hvalue⟩)

end Operators

end Run

/-- `$t op= e` ends as `$t = $t op e` does, on every machine: both succeed, with the same value and
the same environment, or both fail. The exception is a key with a number of too many digits: if the
target cannot be read for that, the second form crashes, whatever the first does. -/
theorem compound_agrees {m : Machine} {h h' hb : Head} {s : String} {op : BinaryOp}
    {target value : Term} {intent? intent'? : Option Intent} (hop : compoundOp? s = some op)
    (hcoalesce : op ≠ .coalesce) (ht : target.Chain) (hkeyed : target.Keyed)
    (hvalue : value.ReadOnly) (hmark : hb.byref = false) (hintent : intent? ≠ some .write)
    (hintent' : intent'? ≠ some .write) :
    EndAlike (((Term.assign h (.string s) target value).eval intent?).outcome m)
      (((Term.assign h' (.string "=") target (.binary hb (.string op.symbol) target value)).eval
        intent'?).outcome m) ∨
    (∃ levels, (target.evalKeys.outcome m).1 = .ok levels ∧ ∃ level ∈ levels, level.Unwritten) ∧
      ((target.eval (some .read)).outcome m).1 = .error (.crash .digitLimit) ∧
      (((Term.assign h' (.string "=") target (.binary hb (.string op.symbol) target value)).eval
        intent'?).outcome m).1 = .error (.crash .digitLimit) := by
  have hvalued : (Term.binary hb (.string op.symbol) target value).byref = false := by
    simp [Term.byref, Term.head?, hmark]
  rw [eval_compound hop hintent, eval_assign rfl (by simp) hvalued hintent']
  rcases agree_expansion hop hcoalesce ht hkeyed hvalue m.env with
    hagree | ⟨⟨levels, hkeys, hlevel⟩, hread, hwrite⟩
  · exact .inl hagree.endAlike
  · obtain ⟨_, hkeys⟩ := hkeys m rfl
    obtain ⟨_, _, hread, rfl⟩ := hread m rfl
    obtain ⟨_, _, hwrite, rfl⟩ := hwrite m rfl
    exact .inr ⟨⟨levels, by rw [hkeys], hlevel⟩, by rw [hread], by rw [hwrite]⟩

/-- The value that a term leaves after a text was run. -/
def valueAfter (text : String) (t : Term) : Option String := do
  let n ← (Source.tree text).toOption
  let v ← ((do t.eval none; popView).outcome (n.run .init).2).1.toOption
  return v.value.display

/-- The text `c`, as a term. -/
def letterTerm : Term := .literal ⟨"string", default, false⟩ (.string "c")

/-- `$s['k'][1] = $s['k'][1] . 'c'`. -/
def letterExpansion : Term :=
  .assign default (.string "=") letterTarget
    (.binary ⟨"bin", default, false⟩ (.string BinaryOp.concat.symbol) letterTarget letterTerm)

/-- A letter of a string is made longer, and only its first letter is written back. -/
theorem compound_agrees_letter :
    valueAfter "$s = ['k' => 'ab'];" (.assign default (.string ".=") letterTarget letterTerm) =
      some "'b'" ∧
    ∃ n, Source.tree "$s = ['k' => 'ab'];" = .ok n ∧
      EndAlike
        (((Term.assign default (.string ".=") letterTarget letterTerm).eval none).outcome
          (n.run .init).2)
        ((letterExpansion.eval none).outcome (n.run .init).2) := by
  have hvalue : valueAfter "$s = ['k' => 'ab'];"
      (.assign default (.string ".=") letterTarget letterTerm) = some "'b'" := by decide +kernel
  have hexpansion : valueAfter "$s = ['k' => 'ab'];" letterExpansion = some "'b'" := by
    decide +kernel
  refine ⟨hvalue, ?_⟩
  simp only [valueAfter, Option.bind_eq_bind, Option.bind_eq_some_iff] at hexpansion
  obtain ⟨n, hn, v, hv, -⟩ := hexpansion
  have hop : compoundOp? ".=" = some .concat := rfl
  have hchain : letterTarget.Chain := ⟨⟨trivial, trivial⟩, trivial⟩
  have hkeyed : letterTarget.Keyed := ⟨⟨trivial, rfl⟩, rfl⟩
  have hread : letterTerm.ReadOnly := trivial
  refine ⟨n, eq_ok_of_toOption hn, (compound_agrees hop (by decide) hchain hkeyed hread rfl
    (by decide) (by decide)).resolve_right ?_⟩
  rintro ⟨-, -, hcrash⟩
  have hrun : ((letterExpansion.eval none).outcome (n.run .init).2).1 =
    .error (.crash .digitLimit) := hcrash
  rw [outcome_bind_of_error (Prod.ext hrun rfl)] at hv
  cases hv

/-- The crash that a term ends with after a text was run. -/
def crashOf (text : String) (t : Term) : Option Crash := do
  let n ← (Source.tree text).toOption
  match ((t.eval none).outcome (n.run .init).2).1 with
  | .error (.crash c) => return c
  | _ => none

/-- The target `$a[n]`, for a number with more digits than can be told. -/
def farTarget : Term :=
  .subscript ⟨"offsetlookup", default, false⟩ (.variable ⟨"variable", default, false⟩ (.string "a"))
    (.literal ⟨"number", default, false⟩ (.scalar (.number (.int farOffset))))

/-- The number `1`, as a term. -/
def oneTerm : Term := .literal ⟨"number", default, false⟩ (.string "1")

/-- Where nothing lies under a key that cannot be told, `+=` makes an element, and its expansion
crashes. -/
theorem compound_far :
    valueAfter "$a = [];" (.assign default (.string "+=") farTarget oneTerm) = some "1" ∧
      crashOf "$a = [];" (.assign default (.string "=") farTarget
        (.binary ⟨"bin", default, false⟩ (.string BinaryOp.add.symbol) farTarget oneTerm)) =
          some .digitLimit := by
  constructor <;> decide +kernel

end PhpInterpreter
