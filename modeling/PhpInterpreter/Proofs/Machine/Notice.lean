import PhpInterpreter.Proofs.Machine.Operand
import PhpInterpreter.Proofs.Machine.Peek

/-!
The notices of one read. A chain of subscripts on a variable can miss at each level, but a miss
leaves null or nothing, and what lies under that is null without another word. So a read says at
most once that something is not there, and then finds nothing.
-/

namespace PhpInterpreter

/-- The remark is about something that is not there. -/
def Remark.IsMissing : Remark → Prop
  | .undefinedVariable _ | .missingOffset _ | .missingIndex _ | .missingCharacter _ => True
  | _ => False

theorem Remark.IsMissing.severity {r : Remark} (h : r.IsMissing) : r.severity = .notice := by
  cases r <;> first | rfl | exact h.elim

theorem Remark.isMissing_of_map {x : Except Crash String} {f : String → Remark} {r : Remark}
    (h : x.map f = .ok r) (hf : ∀ shown, (f shown).IsMissing) : r.IsMissing := by
  cases x with
  | ok shown =>
    obtain rfl := Except.ok.inj h
    exact hf shown
  | error c => cases h

theorem Remark.isMissing_of_missing {k : Key} {r : Remark} (h : Remark.missing k = .ok r) :
    r.IsMissing := by
  cases k with
  | int n => exact isMissing_of_map h fun _ => trivial
  | str s =>
    obtain rfl := Except.ok.inj h
    trivial

/-- The notices among diagnostics. -/
def notices (said : List Diagnostic) : List Diagnostic :=
  said.filter fun d => d.remark.severity == .notice

/-- There is at most one notice, and it is about something that is not there. -/
def SaidOnce (said : List Diagnostic) : Prop :=
  notices said = [] ∨ ∃ d, notices said = [d] ∧ d.remark.IsMissing

/-- There is at most one notice, and then the value is not there. -/
def SaidMissing (said : List Diagnostic) (v : Value) : Prop :=
  SaidOnce said ∧ (notices said = [] ∨ v.isNull = true)

section

variable {said more : List Diagnostic} {v w : Value}

theorem notices_append (said more : List Diagnostic) :
    notices (said ++ more) = notices said ++ notices more := List.filter_append ..

theorem notices_remarks {rs : List Remark} (h : ∀ r ∈ rs, r.severity ≠ .notice) (line : Json) :
    notices (rs.map (⟨·, line⟩)) = [] := by
  rw [notices, List.filter_eq_nil_iff]
  intro d hd
  obtain ⟨r, hr, rfl⟩ := List.mem_map.1 hd
  simpa using h r hr

/-- One notice of something that is not there, after what is none. -/
theorem saidMissing_of_isMissing {rs : List Remark} {r : Remark}
    (hrs : ∀ r ∈ rs, r.severity ≠ .notice) (hr : r.IsMissing) (hv : v.isNull = true) (line : Json) :
    SaidMissing ((rs ++ [r]).map (⟨·, line⟩)) v := by
  have hone : notices [⟨r, line⟩] = [⟨r, line⟩] := by
    simp [notices, hr.severity]
  rw [List.map_append, SaidMissing, SaidOnce, notices_append, notices_remarks hrs line]
  exact ⟨.inr ⟨⟨r, line⟩, hone, hr⟩, .inr hv⟩

theorem saidMissing_of_none (h : notices said = []) : SaidMissing said v := ⟨.inl h, .inl h⟩

/-- What is no notice does not add to the one. -/
theorem SaidOnce.append (h : SaidOnce said) (hmore : notices more = []) :
    SaidOnce (said ++ more) := by
  rw [SaidOnce, notices_append, hmore, List.append_nil]
  exact h

/-- Under a value that is there a miss is the first one, and under a missing one none is noticed. -/
theorem SaidMissing.under (h : SaidMissing said v) (h' : SaidMissing more w)
    (hnull : v.isNull = true → notices more = [] ∧ w.isNull = true) :
    SaidMissing (said ++ more) w := by
  rw [SaidMissing, SaidOnce, notices_append]
  rcases h.2 with hnone | hv
  · rw [hnone, List.nil_append]
    exact h'
  · obtain ⟨hmore, hw⟩ := hnull hv
    rw [hmore, List.append_nil]
    exact ⟨h.1, .inr hw⟩

/-- What is written while a view is held does not fill a place that was missing. -/
theorem SaidMissing.stays {b b' : View} (h : SaidMissing said b.value) (hstays : b.Stays b') :
    SaidMissing said b'.value := by
  refine ⟨h.1, h.2.imp_right fun hnull => ?_⟩
  rcases hstays with hsame | ⟨-, t, u, ht, -⟩
  · rw [hsame]
    exact hnull
  · rw [ht] at hnull
    cases hnull

end

namespace Value

/-- A value that is used as a key is only warned about. -/
theorem ends_toKey (v : Value) : Ends v.toKey [] (fun _ rs => ∀ r ∈ rs, r.severity ≠ .notice)
    fun _ rs => ∀ r ∈ rs, r.severity ≠ .notice := by
  cases v with
  | undefined | bool _ | number _ => exact nofun
  | string s =>
    simp only [toKey]
    split <;> exact nofun
  | null | array _ | object _ _ =>
    simp only [toKey, Noting.remark, ends_bind, ends_modify, ends_pure]
    simp [Remark.severity]

/-- A loud remark is made, or none is. -/
theorem ends_mention_said (r : Except Crash Remark) (rs : List Remark) :
    Ends (Noting.mention false r) rs (fun _ rs' => ∃ r', r = .ok r' ∧ rs' = rs ++ [r'])
      fun _ rs' => rs' = rs := by
  cases r with
  | ok r => exact ⟨r, rfl, rfl⟩
  | error c => exact rfl

theorem ends_charAt_said (s : String) (key : Key) (line : Json) :
    Ends (charAt false s key) [] (fun v rs => SaidMissing (rs.map (⟨·, line⟩)) v)
      fun _ rs => ∀ r ∈ rs, r.severity ≠ .notice := by
  have hmissing : ∀ (n : Int) (rs : List Remark), (∀ r ∈ rs, r.severity ≠ .notice) →
      Ends (do
        Noting.mention false ((integerText n).map .missingCharacter)
        return undefined) rs (fun v rs => SaidMissing (rs.map (⟨·, line⟩)) v)
        fun _ rs => ∀ r ∈ rs, r.severity ≠ .notice := by
    intro n rs hrs
    rw [ends_bind]
    refine (ends_mention_said _ rs).mono ?_ fun _ _ hsame => hsame ▸ hrs
    rintro _ _ ⟨r, hr, rfl⟩
    exact saidMissing_of_isMissing hrs (Remark.isMissing_of_map hr fun _ => trivial) rfl line
  cases key with
  | int n =>
    simp only [charAt, pure_bind]
    split
    · exact saidMissing_of_none rfl
    · exact hmissing n [] (by simp)
  | str t =>
    have hoffset : ∀ r ∈ [Remark.illegalStringOffset t], r.severity ≠ .notice := by
      simp [Remark.severity]
    simp only [charAt, pure_bind, Noting.remark, ends_bind, ends_modify]
    split
    · exact saidMissing_of_none (notices_remarks hoffset line)
    · exact (ends_bind _ _).1 (hmissing 0 _ hoffset)

end Value

namespace Term

open Run

/-- From `m`, where the node itself is off the stack, every key of a chain of subscripts on a
variable is evaluated without a diagnostic. The base is evaluated first, over the key that waits,
and is held while the key is evaluated. -/
def SilentKeys : Term → Machine → Prop
  | .variable _ _, _ => True
  | .subscript _ base key, m =>
    base.SilentKeys { m with stack := .pending key (some .read) :: m.stack } ∧
      ∀ (m₁ : Machine) (b : View) (below : List Item),
        evaluate.outcome { m with
          stack := .pending base (some .read) :: .pending key (some .read) :: m.stack } =
            (.ok (), m₁) →
        m₁.stack = .value b :: .pending key (some .read) :: below →
        (evaluate.outcome { m₁ with
          stack := .pending key (some .read) :: below, held := b :: m₁.held }).2.log = m₁.log
  | _, _ => False

end Term

namespace Run

variable {m : Machine} {h : Head} {t : Term} {below : List Item} {intent? : Option Intent}

/-- What was logged from one machine to another. -/
def Says (P : List Diagnostic → Prop) (m m' : Machine) : Prop :=
  ∃ said, m'.log = m.log ++ said ∧ P said

theorem says_self {P : List Diagnostic → Prop} (h : P []) : Says P m m :=
  ⟨[], (List.append_nil _).symm, h⟩

/-- A subscript notices a miss and then gives nothing; under null it gives null. If it stops, it
has noticed nothing. -/
theorem ends_subscriptView_said {byref : Bool} {base : View} {key : Key} :
    Ends (subscriptView h byref false base key) m
      (fun v m' => m'.stack = m.stack ∧ Says (fun said => SaidMissing said v.value ∧
        (base.value.isNull = true → notices said = [] ∧ v.value.isNull = true)) m m')
      fun _ m' => Says (fun said => notices said = []) m m' := by
  unfold subscriptView
  split
  · rename_i s hs
    split
    · exact says_self rfl
    · simp only [ends_bind, ends_noting, ends_pure]
      refine (Value.ends_charAt_said s key h.place.line).mono (fun v rs hv => ?_)
        fun _ rs hrs => ⟨_, rfl, notices_remarks hrs _⟩
      exact ⟨rfl, _, rfl, hv, by simp [hs, Value.isNull]⟩
  · rename_i t ht
    split
    · exact ⟨rfl, says_self ⟨saidMissing_of_none rfl, by simp [ht, Value.isNull]⟩⟩
    · simp only [ends_bind, ends_noting, ends_pure]
      refine (Value.ends_mention_said _ []).mono ?_ ?_
      · rintro _ _ ⟨r, hr, rfl⟩
        have hmissing : SaidMissing (([] ++ [r]).map (⟨·, h.place.line⟩)) Value.null :=
          saidMissing_of_isMissing (by simp) (Remark.isMissing_of_missing hr) rfl h.place.line
        exact ⟨rfl, _, rfl, hmissing, by simp [ht, Value.isNull]⟩
      · rintro _ _ rfl
        exact ⟨_, rfl, rfl⟩
  · exact says_self rfl
  · refine ⟨rfl, says_self ⟨saidMissing_of_none rfl, fun _ => ⟨rfl, rfl⟩⟩⟩

/-- Evaluating the node on top of the stack off it is evaluating it. -/
theorem outcome_resume (hstack : m.stack = .pending t intent? :: below) :
    (resume (within t (t.eval intent?))).outcome m = evaluate.outcome m := by
  obtain ⟨env, stack, held, output, log⟩ := m
  obtain rfl : stack = .pending t intent? :: below := hstack
  rfl

theorem ends_of_outcome {α : Type} {act : Run α} {P : Machine → Prop} (h : P (act.outcome m).2) :
    Ends act m (fun _ => P) fun _ => P := by
  refine ends_iff.2 ⟨fun a m' hrun => ?_, fun f m' hrun => ?_⟩
  · rwa [show act.outcome m = (.ok a, m') from hrun] at h
  · rwa [show act.outcome m = (.error f, m') from hrun] at h

theorem ends_resume_said {act : Run Unit} {Q : Machine → Prop} {P : Machine → Prop}
    (hstack : m.stack = .pending t intent? :: below)
    (hact : Ends act { m with stack := below } (fun _ => Q) fun _ => P) :
    Ends (resume (within t act)) m (fun _ => Q) fun _ => P := by
  simp only [resume, ends_bind, ends_pop hstack]
  unfold within
  split
  · rw [ends_located]
    exact hact
  · exact hact

theorem ends_variable_said {name : Datum} :
    Ends (variableBody h name (some .read)) m
      (fun _ m' => ∃ v rest, m'.stack = .value v :: rest ∧
        Says (fun said => SaidMissing said v.value) m m')
      fun _ m' => Says SaidOnce m m' := by
  simp only [variableBody, ends_bind]
  rcases variableName_cases name with ⟨x, hx⟩ | ⟨e, he⟩ | ⟨b, hb⟩
  · simp only [hx, ends_pure, ends_inScope]
    refine (ends_trivial _ _).mono (fun l? e _ => ?_) fun _ _ _ => says_self (.inl rfl)
    cases l? with
    | some l => exact ⟨_, _, rfl, says_self (saidMissing_of_none rfl)⟩
    | none =>
      simp only [ends_bind, ends_noting, Noting.remark, ends_modify, ends_pushValue]
      exact ⟨_, _, rfl, _, rfl, .inr ⟨_, rfl, trivial⟩, .inr rfl⟩
  · rw [he]
    exact says_self (.inl rfl)
  · rw [hb]
    exact says_self (.inl rfl)

/-- The key is there, and the base is read under it. -/
theorem ends_keyed_said {m' : Machine} {byref : Bool} {base k : View} {said : List Diagnostic}
    (hlog : m'.log = m.log ++ said) (hstack : m'.stack = .value k :: below)
    (hsaid : SaidMissing said base.value) :
    Ends (do
        let k ← popView
        let k ← noting h.place.line false k.value.toKey
        pushView (← subscriptView h byref false base k)) m'
      (fun _ m' => ∃ v rest, m'.stack = .value v :: rest ∧
        Says (fun said => SaidMissing said v.value) m m')
      fun _ m' => Says SaidOnce m m' := by
  -- The warnings about the key are no notices.
  have hwarned : ∀ {rs : List Remark}, (∀ r ∈ rs, r.severity ≠ .notice) →
      SaidMissing (said ++ rs.map (⟨·, h.place.line⟩)) base.value := fun hrs => by
    rw [SaidMissing, SaidOnce, notices_append, notices_remarks hrs, List.append_nil]
    exact hsaid
  simp only [ends_bind, ends_popView hstack, ends_noting]
  refine (Value.ends_toKey k.value).mono (fun key rs hrs => ?_) fun _ rs hrs => ?_
  · have hkey : (logged h.place.line false rs { m' with stack := below }).log =
        m.log ++ (said ++ rs.map (⟨·, h.place.line⟩)) := by
      simp [logged, hlog]
    refine ends_subscriptView_said.mono (fun v m'' => ?_) fun _ m'' => ?_
    · rintro ⟨-, more, hmore, hunder, hnull⟩
      refine ⟨v, _, rfl, _, ?_, (hwarned hrs).under hunder hnull⟩
      rw [← List.append_assoc, ← hkey]
      exact hmore
    · rintro ⟨more, hmore, hnone⟩
      refine ⟨_, ?_, (hwarned hrs).1.append hnone⟩
      rw [← List.append_assoc, ← hkey]
      exact hmore
  · exact ⟨_, by simp [logged, hlog], (hwarned hrs).1⟩

theorem ends_chain_said (t : Term) (m : Machine) (hkeys : t.SilentKeys m) :
    Ends (t.eval (some .read)) m
      (fun _ m' => ∃ v rest, m'.stack = .value v :: rest ∧
        Says (fun said => SaidMissing said v.value) m m')
      fun _ m' => Says SaidOnce m m' := by
  match t with
  | .variable h name =>
    rw [Term.eval]
    exact ends_variable_said
  | .subscript h base key =>
    obtain ⟨hbase, hkey⟩ := hkeys
    cases habsent : key.isAbsent with
    | true =>
      obtain rfl := Term.eq_absent habsent
      simp only [Term.eval]
      exact says_self (.inl rfl)
    | false =>
      have hloud : (Intent.read == Intent.isset) = false := rfl
      rw [eval_subscript (by decide) habsent, hloud]
      simp only [readSubscript, ends_bind, ends_pushPending, habsent, Bool.false_eq_true, if_false]
      split
      · exact says_self (.inl rfl)
      have hread : some Intent.read ≠ some .write := by decide
      have hsaid := ends_resume_said
        (m := { m with
          stack := .pending base (some .read) :: .pending key (some .read) :: m.stack })
        rfl (ends_chain_said base _ hbase)
      refine ((ends_resume_value rfl hread).and hsaid).mono ?_ fun _ _ hsaid => hsaid.2
      rintro - m₁ ⟨⟨hrun, b, ws, -, hstack, -⟩, b', rest, hstack', said, hlog, hsaid⟩
      obtain ⟨rfl, rfl⟩ : b = b' ∧ (Item.pending key (some .read) :: m.stack).map
          (Item.followAll ws) = rest := by simpa [hstack] using hstack'
      rw [List.map_cons, Item.followAll_pending] at hstack
      have hsilent := hkey m₁ b _ hrun hstack
      rw [ends_popView hstack]
      refine ends_holding (fun _ _ _ hf => hf) ?_
      rw [← outcome_resume rfl] at hsilent
      have hquiet := ends_of_outcome (P := fun m' : Machine => m'.log = m₁.log) hsilent
      refine ((ends_resume_value rfl hread).and hquiet).mono ?_ fun _ m' hquiet =>
        ⟨said, hquiet.2.trans hlog, hsaid.1⟩
      rintro - m₂ ⟨⟨-, k, ws', -, hstack₂, hheld⟩, hlog₂⟩
      refine ⟨b.followAll ws', m₁.held.map (View.followAll ws'), hheld, ?_⟩
      have hlog' : ({ m₂ with held := m₁.held.map (View.followAll ws') } : Machine).log =
          m.log ++ said := hlog₂.trans hlog
      simpa only [ends_bind] using
        ends_keyed_said hlog' hstack₂ (hsaid.stays (b.stays_followAll ws'))

/-- Reading a chain of subscripts on a variable, whose keys are evaluated without a diagnostic,
gives at most one notice, about a variable, an element or a character that is not there. This holds
however the read ends; where it ends with a value after a notice, the value is null or undefined. -/
theorem evaluate_notices (hstack : m.stack = .pending t (some .read) :: below)
    (hkeys : t.SilentKeys { m with stack := below }) :
    ∃ said, (evaluate.outcome m).2.log = m.log ++ said ∧ SaidOnce said ∧
      ∀ m', evaluate.outcome m = (.ok (), m') →
        ∃ v rest, m'.stack = .value v :: rest ∧ (notices said = [] ∨ v.value.isNull = true) := by
  have hends := ends_resume_said hstack (ends_chain_said t _ hkeys)
  have hsame := outcome_resume hstack
  rcases hrun : evaluate.outcome m with ⟨_ | _, m'⟩
  · obtain ⟨said, hlog, honce⟩ := hends.of_error (hsame.trans hrun)
    exact ⟨said, hlog, honce, nofun⟩
  · obtain ⟨v, rest, hstack', said, hlog, honce, hnull⟩ := hends.of_ok (hsame.trans hrun)
    refine ⟨said, hlog, honce, ?_⟩
    rintro _ ⟨⟩
    exact ⟨v, rest, hstack', hnull⟩

/-- The chain `$nope['k'][2]`. -/
def missingChain : Term :=
  .subscript ⟨"offsetlookup", default, false⟩
    (.subscript ⟨"offsetlookup", default, false⟩
      (.variable ⟨"variable", default, false⟩ (.string "$nope"))
      (.literal ⟨"string", default, false⟩ (.string "k")))
    (.literal ⟨"number", default, false⟩ (.string "2"))

/-- The fresh machine with the chain waiting to be read. -/
def missingMachine : Machine := ⟨.init, [.pending missingChain (some .read)], [], "", []⟩

/-- Only the variable is noticed, and the element two levels down is null. -/
theorem evaluate_notices_missing :
    ∃ m' v rest, evaluate.outcome missingMachine = (.ok (), m') ∧ SaidOnce m'.log ∧
      m'.log.map (·.remark) = [.undefinedVariable "nope"] ∧ m'.stack = .value v :: rest ∧
      v.value.isNull = true := by
  have hkeys : missingChain.SilentKeys { missingMachine with stack := [] } :=
    ⟨⟨trivial, fun _ _ _ _ _ => rfl⟩, fun _ _ _ _ _ => rfl⟩
  have hok : (evaluate.outcome missingMachine).1.isOk = true := by decide +kernel
  have hremarks : (evaluate.outcome missingMachine).2.log.map (·.remark) =
      [.undefinedVariable "nope"] := by decide +kernel
  obtain ⟨⟨⟩, m', hrun⟩ := exists_of_isOk hok
  obtain ⟨said, hlog, honce, hresult⟩ := evaluate_notices (m := missingMachine) rfl hkeys
  obtain ⟨v, rest, hstack, hnull⟩ := hresult m' hrun
  rw [hrun] at hremarks hlog
  obtain rfl : m'.log = said := hlog
  obtain ⟨d, hd, hremark⟩ := List.map_eq_singleton_iff.1 hremarks
  have hnotice : notices m'.log ≠ [] := by
    rw [show m'.log = [d] from hd]
    simp [notices, hremark, Remark.severity]
  exact ⟨m', v, rest, hrun, honce, hremarks, hstack, hnull.resolve_left hnotice⟩

end Run

end PhpInterpreter
