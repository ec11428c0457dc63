import PhpInterpreter.Proofs.Machine.Safety

/-!
The execution stack between the programs that one machine runs. Errors of the language leave it
empty. A crash does not: what it leaves is reported as a leak by the next statement that comes to
its end, in whatever program. The first call of a machine that goes wrong this way is always one
that reached a limit of numbers.
-/

namespace PhpInterpreter

open Environment

namespace Run

variable {m : Machine} {t : Term}

/-- A statement returns only if nothing was on the stack before it, and only a crash leaves
something there. -/
theorem ends_statement_stack (m : Machine) (ht : t.isAbsent = false) :
    Ends (statement t) m (fun _ m' => m.stack = [] ∧ m'.stack = [])
      fun f m' => ∀ e, f = .error e → m'.stack = [] := by
  have hempty : Ends (statement t) m (fun _ m' => m'.stack = [])
      fun f m' => ∀ e, f = .error e → m'.stack = [] := by
    simp only [statement, ends_bind, ends_pushPending, ht, Bool.false_eq_true, if_false]
    refine (ends_clearing_emptied _ _).mono (fun v m _ => ?_) fun _ _ h => h
    simp only [ends_get]
    split
    · rename_i hcount
      exact List.eq_nil_of_length_eq_zero hcount
    · simp only [clear, ends_bind, ends_modify, ends_breach]
      exact fun _ _ => trivial
  -- Evaluation gives back the stack it found, so what was there before would still be there.
  have hback : Ends (statement t) m
      (fun _ m' => ∃ ws, m'.stack = m.stack.map (Item.followAll ws)) fun _ _ => True := by
    have hstart := Contract.At.start (Contract.free_env m.env)
    refine (hstart.statement False.elim fun v m' hm' => ?_).mono (fun _ _ h => h)
      fun _ _ _ => trivial
    obtain ⟨ws, -, -, hstack⟩ := hm'.follows
    exact ⟨ws, hstack⟩
  refine (hempty.and hback).mono ?_ fun _ _ h => h.1
  rintro v m' ⟨hnil, ws, hmap⟩
  exact ⟨List.map_eq_nil_iff.1 (hmap.symm.trans hnil), hnil⟩

/-- Statements after the first one start on an empty stack. -/
theorem ends_statements_stack {ts : List Term} (m : Machine)
    (hts : ∀ t ∈ ts, t.isAbsent = false) (v : Value) (hne : ts ≠ []) :
    Ends (statements ts v) m (fun _ m' => m.stack = [] ∧ m'.stack = [])
      fun f m' => ∀ e, f = .error e → m'.stack = [] := by
  induction ts generalizing m v with
  | nil => exact absurd rfl hne
  | cons t rest ih =>
    obtain ⟨ht, hrest⟩ := List.forall_mem_cons.1 hts
    simp only [statements, ends_bind]
    refine (ends_statement_stack m ht).mono ?_ fun _ _ h => h
    rintro w m' ⟨hm, hm'⟩
    cases rest with
    | nil => exact ⟨hm, hm'⟩
    | cons t' rest => exact (ih m' hrest w (by simp)).mono (fun _ _ h => ⟨hm, h.2⟩) fun _ _ h => h

end Run

/-- The calls of a new machine, each with a program: what they gave, and the machine after them. -/
inductive Calls : List (Except Fault Value) → Machine → Prop
  | nil : Calls [] .init
  | snoc {results : List (Except Fault Value)} {m : Machine} {text : String} {n : Node}
      (h : Calls results m) (htree : Source.tree text = .ok n) :
      Calls (results ++ [(n.run m).1]) (n.run m).2

/-- A value, or an error of the language that is no violated contract. -/
def Regular (r : Except Fault Value) : Prop :=
  (∀ c, r ≠ .error (.crash c)) ∧ ∀ e, r = .error (.error e) → ∀ b, e.cause ≠ .breach b

variable {results : List (Except Fault Value)} {m : Machine} {n : Node} {text : String}

/-- No objects come from programs, and whatever they do, the environment stays consistent. -/
theorem Calls.safe_env (h : Calls results m) : (Contract.safe fun _ => False).Env m.env := by
  have hinv : (Contract.tidy fun _ => False).Cells m.env ∧ Consistent m.env := by
    induction h with
    | nil => exact ⟨Contract.cells_init _, consistent_init⟩
    | @snoc _ m _ n _ _ ih =>
      obtain ⟨ws, he, hw⟩ :=
        Contract.run_effect (.tidy fun _ => False) n ⟨ih.1, fun _ => ih.2⟩ id
      exact ⟨ih.1.effect he hw, (he.steps ih.2).consistent⟩
  exact ⟨hinv.1, fun _ => hinv.2⟩

/-- One call on an empty stack. -/
theorem Calls.regular_or_limit (h : Calls results m) (hstack : m.stack = [])
    (htree : Source.tree text = .ok n) :
    (Regular (n.run m).1 ∧ (n.run m).2.stack = []) ∨
      ∃ c, (n.run m).1 = .error (.crash c) ∧ c.IsLimit := by
  have hwell := Node.endsWell_of_env htree h.safe_env hstack
  unfold Node.EndsWell at hwell
  generalize n.run m = p at hwell ⊢
  obtain ⟨r, m'⟩ := p
  cases r with
  | ok v => exact .inl ⟨⟨fun _ hr => (by cases hr), fun _ hr => (by cases hr)⟩, hwell⟩
  | error f =>
    cases f with
    | error e =>
      refine .inl ⟨⟨fun _ hr => (by cases hr), fun e' hr => ?_⟩, hwell.2⟩
      obtain rfl := Fault.error.inj (Except.error.inj hr)
      exact hwell.1
    | crash c =>
      refine .inr ⟨c, rfl, hwell.resolve_right ?_⟩
      rintro ⟨-, name, -, hfalse⟩
      exact hfalse

/-- As long as no call crashed, all went well and the stack is empty; the first call that crashed
reached a limit. -/
theorem Calls.clean_or_limit (h : Calls results m) :
    ((∀ r ∈ results, Regular r) ∧ m.stack = []) ∨
      ∃ before c after, results = before ++ .error (.crash c) :: after ∧
        (∀ r ∈ before, Regular r) ∧ c.IsLimit := by
  induction h with
  | nil => exact .inl ⟨fun _ hr => absurd hr List.not_mem_nil, rfl⟩
  | @snoc results m _ n h htree ih =>
    rcases ih with ⟨hclean, hstack⟩ | ⟨before, c, after, rfl, hclean, hc⟩
    · rcases h.regular_or_limit hstack htree with ⟨hr, hstack'⟩ | ⟨c, hr, hc⟩
      · refine .inl ⟨fun r hin => ?_, hstack'⟩
        rcases List.mem_append.1 hin with hin | hin
        · exact hclean r hin
        · exact List.mem_singleton.1 hin ▸ hr
      · exact .inr ⟨results, c, [], by rw [hr], hclean, hc⟩
    · exact .inr ⟨before, c, after ++ [(n.run m).1], by simp, hclean, hc⟩

/-- A call with a statement, on any stack. -/
theorem Node.run_stack (htree : Source.tree text = .ok n)
    (hsome : ∀ head iterable, n.toTerm ≠ .program head iterable []) (m : Machine) :
    Ends (Run.program n.toTerm) m (fun _ m' => m.stack = [] ∧ m'.stack = [])
      fun f m' => ∀ e, f = .error e → m'.stack = [] := by
  have hrun := Source.runnable_of_tree htree
  unfold Run.program
  split
  · rename_i head iterable ts hterm
    rw [hterm] at hrun
    obtain ⟨rfl, hts⟩ := hrun
    have hne : ts ≠ [] := by
      rintro rfl
      exact hsome head true hterm
    exact Run.ends_statements_stack m (fun t ht => (hts t ht).2) .null hne
  · rename_i hother
    refine Run.ends_statements_stack m (fun t ht => ?_) .null (by simp)
    obtain rfl := List.mem_singleton.1 ht
    unfold Term.Runnable at hrun
    split at hrun
    · rename_i heq
      exact (hother _ _ _ heq).elim
    · exact hrun.2

/-- The calls of one machine. Either all of them ended with a value or an error of the language and
the stack is empty, or the first one that did not has reached a limit of numbers. A further program
with a statement gives a value only if the stack is empty before it, and leaves it empty unless it
crashes itself. -/
theorem stack_of_calls (h : Calls results m) :
    (((∀ r ∈ results, Regular r) ∧ m.stack = []) ∨
      ∃ before c after, results = before ++ .error (.crash c) :: after ∧
        (∀ r ∈ before, Regular r) ∧ c.IsLimit) ∧
    ∀ text n, Source.tree text = .ok n →
      (∀ head iterable, n.toTerm ≠ .program head iterable []) →
      (∀ v, (n.run m).1 = .ok v → m.stack = []) ∧
        ((n.run m).2.stack = [] ∨ ∃ c, (n.run m).1 = .error (.crash c)) := by
  refine ⟨h.clean_or_limit, fun text n htree hsome => ?_⟩
  have hends := Node.run_stack htree hsome m
  unfold Ends at hends
  simp only [Node.run, Run.outcome]
  generalize (Run.program n.toTerm).run.run m = p at hends ⊢
  obtain ⟨r, m'⟩ := p
  cases r with
  | ok v => exact ⟨fun _ _ => hends.1, .inl hends.2⟩
  | error f =>
    refine ⟨fun _ hr => (by cases hr), ?_⟩
    cases f with
    | error e => exact .inl (hends e rfl)
    | crash c => exact .inr ⟨c, rfl⟩

/-- A text whose last statement writes to an offset of a string that is no index, while a sum
waits. -/
def limitText : String := "$s = 'a'; ($s[1e19] = 'x') + 1;"

/-- What a text crashes with on a new machine and how much it leaves on the stack, and how many
items the text run after it is told were leaked. -/
def leakBetween (first second : String) : Option (Crash × Nat × Nat) := do
  let n ← (Source.tree first).toOption
  let n' ← (Source.tree second).toOption
  match (n.run .init).1, (n'.run (n.run .init).2).1 with
  | .error (.crash c), .error (.error ⟨.breach (.leaked k), none⟩) =>
    some (c, (n.run .init).2.stack.length, k)
  | _, _ => none

/-- A sum that waits when a limit is reached is reported to the next program, which has no part in
it, and then it is gone. -/
theorem stack_of_calls_leak :
    ∃ n n' m, Source.tree limitText = .ok n ∧ Source.tree "1;" = .ok n' ∧
      n.run .init = (.error (.crash .outOfRange), m) ∧ m.stack.length = 1 ∧
      (n'.run m).1 = .error (.breach (.leaked 1)) ∧ (n'.run m).2.stack = [] := by
  have hleak : leakBetween limitText "1;" = some (.outOfRange, 1, 1) := by decide +kernel
  simp only [leakBetween, Option.bind_eq_bind, Option.bind_eq_some_iff] at hleak
  obtain ⟨n, hn, n', hn', hleak⟩ := hleak
  have htree : Source.tree limitText = .ok n := eq_ok_of_toOption hn
  have htree' : Source.tree "1;" = .ok n' := eq_ok_of_toOption hn'
  rcases hrun : n.run .init with ⟨r, m⟩
  rcases hrun' : n'.run m with ⟨r', m'⟩
  rw [hrun] at hleak
  simp only [hrun'] at hleak
  split at hleak
  · obtain ⟨rfl, hlength, rfl⟩ : _ = Crash.outOfRange ∧ m.stack.length = 1 ∧ _ = 1 := by
      simpa using hleak
    have hsome : ∀ head iterable, n'.toTerm ≠ .program head iterable [] := by
      intro head iterable hterm
      rw [Node.run, hterm] at hrun'
      cases iterable <;> cases hrun'
    have hcalls := Calls.snoc .nil htree
    rw [hrun] at hcalls
    obtain ⟨-, hnext⟩ := stack_of_calls hcalls
    obtain ⟨-, hstack⟩ := hnext _ n' htree' hsome
    rw [hrun'] at hstack
    refine ⟨n, n', m, htree, htree', hrun, hlength, by rw [hrun']; rfl, ?_⟩
    rw [hrun']
    exact hstack.resolve_right fun ⟨_, hc⟩ => by cases hc
  · cases hleak

end PhpInterpreter
