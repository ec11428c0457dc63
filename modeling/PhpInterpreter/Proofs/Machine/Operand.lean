import PhpInterpreter.Proofs.Machine.Discipline

/-!
The operands of a binary operator. The left one is held as a view while the right one is evaluated,
so an array that was read from a place is compared or added as it stands after the writes into that
place; every other operand is used as it was read.
-/

namespace PhpInterpreter

/-- The second location is inside the array at the first one. -/
def Location.Above (home l : Location) : Prop :=
  home.slot = l.slot ∧ home.path <+: l.path ∧ home.path ≠ l.path

namespace View

theorem home?_follow {v : View} {l home : Location} {new : Value}
    (h : (v.follow l new).home? = some home) : v.home? = some home := by
  unfold follow at h
  split at h
  · exact h
  · rename_i hhome
    split at h
    · exact h
    · split at h
      · cases h
      · split at h
        · exact hhome.trans h
        · exact h

theorem value_follow {v : View} {l : Location} {new : Value}
    (h : ∀ home, v.home? = some home → ¬ home.Above l) : (v.follow l new).value = v.value := by
  unfold follow
  split
  · rfl
  · rename_i home hhome
    split
    · rfl
    · rename_i hslot
      split
      · rfl
      · rename_i habove
        split
        · rename_i hbelow
          refine absurd ⟨not_not.1 hslot, List.isPrefixOf_iff_prefix.1 hbelow, ?_⟩ (h home hhome)
          intro heq
          exact habove (by simp [heq])
        · rfl

/-- A view changes only with a write into the array it sees. -/
theorem value_followAll {ws : List Write} {v : View}
    (h : ∀ home, v.home? = some home → ∀ w ∈ ws, ¬ home.Above w.1) :
    (v.followAll ws).value = v.value := by
  induction ws generalizing v with
  | nil => rfl
  | cons w ws ih =>
    have hstep : (v.follow w.1 w.2).value = v.value :=
      value_follow fun home hhome => h home hhome w List.mem_cons_self
    refine (ih (v := v.follow w.1 w.2) fun home hhome u hu => ?_).trans hstep
    exact h home (home?_follow hhome) u (List.mem_cons_of_mem w hu)

/-- What a view shows after writes: the value it showed, unless that is an array in its place and
one of the writes went into it. -/
theorem value_followAll_or (ws : List Write) (v : View) :
    (v.followAll ws).value = v.value ∨
      ∃ home t, v.home? = some home ∧ v.value = .array t ∧ ∃ w ∈ ws, home.Above w.1 := by
  by_cases hsame : (v.followAll ws).value = v.value
  · exact .inl hsame
  · obtain ⟨-, t, -, ht, -⟩ := (v.stays_followAll ws).resolve_left hsame
    have hwrite : ¬ ∀ home, v.home? = some home → ∀ w ∈ ws, ¬ home.Above w.1 :=
      fun h => hsame (value_followAll h)
    push Not at hwrite
    obtain ⟨home, hhome, w, hw, habove⟩ := hwrite
    exact .inr ⟨home, t, hhome, ht, w, hw, habove⟩

end View

/-- The operators whose left operand can decide the result alone. -/
def BinaryOp.deciding : List BinaryOp := [.and, .or, .lowAnd, .lowOr, .coalesce]

theorem Value.shortCircuit_eq_none {op : BinaryOp} (h : op ∉ BinaryOp.deciding) (v : Value) :
    v.shortCircuit op = none := by
  cases op <;> simp [BinaryOp.deciding] at h <;> rfl

namespace Run

open Environment

variable {m m' : Machine} {t left right : Term} {below : List Item} {intent? : Option Intent}

/-- Evaluating a node that is not to be written gives it way to a value; the items below it and the
operands held meanwhile follow the writes. -/
theorem ends_resume_value (hstack : m.stack = .pending t intent? :: below)
    (hread : intent? ≠ some .write) :
    Ends (resume (within t (t.eval intent?))) m
      (fun _ m' => evaluate.outcome m = (.ok (), m') ∧ ∃ v ws, m.env.Effect ws m'.env ∧
        m'.stack = .value v :: below.map (Item.followAll ws) ∧
        m'.held = m.held.map (View.followAll ws))
      fun _ _ => True := by
  have hready : Contract.free.strict → t.Ready intent? := False.elim
  have hyields := (Contract.yields_eval t intent? hready).value hread
  have hevaluate : Ends evaluate m (fun _ => Contract.free.Has { m with stack := below } [] 0 false)
      fun _ _ => True := by
    simp only [evaluate, ends_bind, ends_pop hstack]
    refine (Contract.ends_within_stop t (hyields _ _ _ _ ?_)).mono (fun _ _ h => h)
      fun _ _ _ => trivial
    exact Contract.At.start (Contract.free_env _)
  have hsame : evaluate.outcome m = (resume (within t (t.eval intent?))).outcome m := by
    obtain ⟨env, stack, held, output, log⟩ := m
    obtain rfl : stack = .pending t intent? :: below := hstack
    rfl
  refine ends_iff.2 ⟨fun _ m' hrun => ?_, fun _ _ _ => trivial⟩
  have hrun : evaluate.outcome m = (.ok (), m') := hsame.trans hrun
  obtain ⟨item, rest, hstack', hat, hresult⟩ := hevaluate.of_ok hrun
  obtain ⟨ws, vs, heffect, -, hrest, hheld, hnone, -⟩ := hat.along
  obtain rfl := List.eq_nil_of_length_eq_zero hnone
  match item with
  | .value v =>
    obtain rfl : rest = below.map (Item.followAll ws) := hrest
    exact ⟨hrun, v, ws, heffect, hstack', hheld⟩
  | .location l? => simp [Contract.Result] at hresult
  | .pending .. => exact hresult.elim

/-- From `m`, with two operands waiting on top of the stack, the machine comes to `m'`: the first
operand leaves `l`, the second one leaves `r` while `l` is held and follows the writes, and the
operator is applied to what `l` then shows and to `r`. -/
def Combines (op : BinaryOp) (line : Json) (m m' : Machine) (l r : View) (writes : List Write) :
    Prop :=
  ∃ (m₁ m₂ : Machine) (v : Value) (remarks : List Remark),
    evaluate.outcome m = (.ok (), { m₁ with stack := .value l :: m₁.stack }) ∧
    evaluate.outcome { m₁ with held := l :: m₁.held } =
      (.ok (), { m₂ with stack := .value r :: m₂.stack, held := l.followAll writes :: m₂.held }) ∧
    m₁.env.Effect writes m₂.env ∧
    (Value.applyBinary op (l.followAll writes).value r.value).outcome = (.ok v, remarks) ∧
    m' = { logged line false remarks m₂ with stack := .value (.fresh v) :: m₂.stack }

theorem ends_binaryBody {head : Head} {operator : Datum} {op : BinaryOp}
    (hop : Operator.ofDatum BinaryOp.ofSymbol? operator = .known op)
    (hboth : op ∉ BinaryOp.deciding) :
    Ends (binaryBody head operator left right (fun i => left.eval i) (right.eval (some .read))) m
      (fun _ m' => ∃ l r writes, Combines op head.place.line
        { m with stack := .pending left (some .read) :: .pending right (some .read) :: m.stack }
        m' l r writes)
      fun _ _ => True := by
  have hnone := Value.shortCircuit_eq_none hboth
  have hkept : op ≠ .coalesce := by
    rintro rfl
    simp [BinaryOp.deciding] at hboth
  have hread : some Intent.read ≠ some .write := by decide
  unfold binaryBody
  simp only [hop, ends_bind, ends_pushPending]
  split
  · trivial
  split
  · trivial
  split
  · simp_all
  refine (ends_resume_value rfl hread).mono ?_ fun _ _ _ => trivial
  rintro - ⟨env₁, _, held₁, output₁, log₁⟩ ⟨hleft, l, ws, -, hstack, -⟩
  rw [List.map_cons, Item.followAll_pending] at hstack
  subst hstack
  rw [ends_popView rfl]
  simp only [hnone, ends_bind]
  refine ends_holding (fun _ _ _ _ => trivial) ?_
  refine (ends_resume_value rfl hread).mono ?_ fun _ _ _ => trivial
  rintro - ⟨env₂, _, _, output₂, log₂⟩ ⟨hright, r, writes, heffect, rfl, rfl⟩
  refine ⟨l.followAll writes, held₁.map (View.followAll writes), rfl, ?_⟩
  rw [ends_popView rfl]
  simp only [ends_noting, ends_pushValue]
  refine ends_iff.2 ⟨fun v remarks hv => ?_, fun _ _ _ => trivial⟩
  refine ⟨l, r, writes, ⟨env₁, .pending right (some .read) :: _, held₁, output₁, log₁⟩,
    ⟨env₂, _, _, output₂, log₂⟩, v, remarks, hleft, hright, heffect, hv, rfl⟩

/-- A binary operator that evaluates both operands: the left one, then the right one, and the result
is that of the operator on what the right one left and on the left one after the writes meanwhile.
These do not change it, unless it is an array in its place and one of them went into it. -/
theorem evaluate_binary {head : Head} {operator : Datum} {op : BinaryOp}
    (hop : Operator.ofDatum BinaryOp.ofSymbol? operator = .known op)
    (hboth : op ∉ BinaryOp.deciding)
    (hstack : m.stack = .pending (.binary head operator left right) intent? :: below)
    (hrun : evaluate.outcome m = (.ok (), m')) :
    ∃ l r writes, Combines op head.place.line
        { m with stack := .pending left (some .read) :: .pending right (some .read) :: below }
        m' l r writes ∧
      ((l.followAll writes).value = l.value ∨
        ∃ home t, l.home? = some home ∧ l.value = .array t ∧ ∃ w ∈ writes, home.Above w.1) := by
  have hends : Ends evaluate m (fun _ m' => ∃ l r writes, Combines op head.place.line
      { m with stack := .pending left (some .read) :: .pending right (some .read) :: below }
      m' l r writes) fun _ _ => True := by
    simp only [evaluate, ends_bind, ends_pop hstack, within, Term.head?, ends_located, Term.eval,
      writable]
    split
    · trivial
    · exact ends_binaryBody hop hboth
  obtain ⟨l, r, writes, hcombines⟩ := hends.of_ok hrun
  exact ⟨l, r, writes, hcombines, l.value_followAll_or writes⟩

/-- The tree of `$a`. -/
def arrayTree : Node := .mk "variable" [("name", .string "$a")] .null none

/-- The tree of `['k' => $a[] = null]`. -/
def appendTree : Node :=
  .mk "array" [("items", .list [.node (.mk "entry"
    [("key", .node (.mk "string" [("value", .string "k")] .null none)),
      ("value", .node (.mk "assign"
        [("left", .node (.mk "offsetlookup" [("what", .node arrayTree), ("offset", .null)]
          .null none)),
          ("right", .node (.mk "nullkeyword" [] .null none)),
          ("operator", .string "=")] .null none))] .null none)])] .null none

/-- The tree of `$a + ['k' => $a[] = null]`. -/
def unionTree : Node :=
  .mk "bin" [("type", .string "+"), ("left", .node arrayTree), ("right", .node appendTree)]
    .null none

/-- A machine with an empty array in `$a`. -/
def arrayMachine : Machine :=
  { Machine.init with env := ((Scoped.declare "a" none >>=
    fun l => Scoped.store l (.array .empty)).run.run .init).2 }

/-- An array added to while it is appended to: the new element is part of the sum. -/
theorem evaluate_binary_append :
    ∃ m' l r writes, evaluate.outcome
        { arrayMachine with stack := [.pending unionTree.toTerm (some .read)] } = (.ok (), m') ∧
      m'.stack.map (·.display.toOption) = [some "<value [0 => NULL, 'k' => NULL]>"] ∧
      Combines .add .null { arrayMachine with stack := [.pending arrayTree.toTerm (some .read),
        .pending appendTree.toTerm (some .read)] } m' l r writes ∧
      ((l.followAll writes).value = l.value ∨
        ∃ home t, l.home? = some home ∧ l.value = .array t ∧ ∃ w ∈ writes, home.Above w.1) := by
  have hresult : (evaluate.outcome
      { arrayMachine with stack := [.pending unionTree.toTerm (some .read)] }).2.stack.map
      (·.display.toOption) = [some "<value [0 => NULL, 'k' => NULL]>"] := by decide +kernel
  have hok : (evaluate.outcome
      { arrayMachine with stack := [.pending unionTree.toTerm (some .read)] }).1.isOk = true := by
    decide +kernel
  obtain ⟨⟨⟩, m', hrun⟩ := exists_of_isOk hok
  rw [hrun] at hresult
  have hop : Operator.ofDatum BinaryOp.ofSymbol? (.string "+") = .known .add := rfl
  obtain ⟨l, r, writes, hcombines, hvalue⟩ := evaluate_binary hop (by decide) rfl hrun
  exact ⟨m', l, r, writes, hrun, hresult, hcombines, hvalue⟩

end Run

end PhpInterpreter
