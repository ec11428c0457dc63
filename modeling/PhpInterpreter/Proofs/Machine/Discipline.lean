import PhpInterpreter.Proofs.Machine.Evaluation

/-!
The discipline of the execution stack. Evaluating the node on top of the stack replaces it by one
result and leaves everything below alone, whatever the tree, the intent and the machine.
-/

namespace PhpInterpreter

namespace Contract

/-- The contract that asks for nothing. -/
def free : Contract where
  value _ := True
  key _ := True
  fault _ := True
  strict := False
  lenient _ _ := trivial
  loose _ := ⟨fun _ => trivial, fun _ => trivial⟩
  null := trivial
  bool _ := trivial
  number _ := trivial
  neg _ := trivial
  mod _ _ _ := trivial
  string _ := trivial
  empty := trivial
  set _ _ _ := trivial
  replace _ _ _ := trivial
  union _ _ := trivial
  entry _ _ := trivial
  truncate _ := trivial
  ofString _ := trivial
  fatal _ := trivial
  operandTypes _ _ _ := trivial
  limit _ := trivial
  identical _ _ _ := trivial
  locate _ _ := trivial

theorem free_env (e : Environment) : free.Env e := ⟨fun _ _ _ _ => trivial, False.elim⟩

end Contract

/-- A write that shows in a value is one into an array. -/
theorem Value.setAt?_array {v new w : Value} {k : Key} {path : List Key}
    (h : v.setAt? (k :: path) new = some w) : ∃ t u, v = .array t ∧ w = .array u := by
  cases v with
  | array t =>
    cases path with
    | nil => exact ⟨t, _, rfl, (Option.some.inj (by simpa [setAt?] using h)).symm⟩
    | cons k' path =>
      simp only [setAt?, Option.bind_eq_bind, Option.bind_eq_some_iff] at h
      obtain ⟨_, -, inner, -, hw⟩ := h
      exact ⟨t, _, rfl, (Option.some.inj hw).symm⟩
  | _ => simp [setAt?] at h

namespace View

/-- The view `w` is the view `v` later on: it shows the same value, or an array in its place with
what was written into it. -/
def Stays (v w : View) : Prop :=
  w.value = v.value ∨ v.home?.isSome ∧ ∃ t u, v.value = .array t ∧ w.value = .array u

theorem stays_follow (v : View) (l : Location) (new : Value) :
    v.Stays (v.follow l new) ∧ ((v.follow l new).home?.isSome → v.home?.isSome) := by
  unfold follow
  split
  · exact ⟨.inl rfl, id⟩
  · rename_i home hhome
    refine ⟨?_, fun _ => by simp [hhome]⟩
    split
    · exact .inl rfl
    · split
      · exact .inl rfl
      · rename_i habove
        split
        · cases hset : v.value.setAt? (l.path.drop home.path.length) new with
          | none => exact .inl rfl
          | some w =>
            refine .inr ⟨by simp [hhome], ?_⟩
            cases hpath : l.path.drop home.path.length with
            | nil =>
              -- A path that starts with the home and goes no further would lie above it.
              rename_i hbelow
              obtain ⟨rest, hrest⟩ := List.isPrefixOf_iff_prefix.1 hbelow
              obtain rfl : rest = [] := by simpa [← hrest] using hpath
              exact absurd (by simp [← hrest]) habove
            | cons k path => exact Value.setAt?_array (hpath ▸ hset)
        · exact .inl rfl

theorem stays_followAll (ws : List Write) (v : View) : v.Stays (v.followAll ws) := by
  induction ws generalizing v with
  | nil => exact .inl rfl
  | cons w ws ih =>
    obtain ⟨hstep, hhome⟩ := v.stays_follow w.1 w.2
    change v.Stays ((v.follow w.1 w.2).followAll ws)
    rcases hstep with hsame | ⟨hsome, t, u, hv, hu⟩
    · rcases ih (v.follow w.1 w.2) with hrest | ⟨hsome, t, u, ht, hu⟩
      · exact .inl (hrest.trans hsame)
      · exact .inr ⟨hhome hsome, t, u, hsame.symm.trans ht, hu⟩
    · rcases ih (v.follow w.1 w.2) with hrest | ⟨-, _, u', -, hu'⟩
      · exact .inr ⟨hsome, t, u, hv, hrest.trans hu⟩
      · exact .inr ⟨hsome, t, u', hv, hu'⟩

end View

namespace Item

/-- The item `j` is the item `i` later on. -/
def Stays : Item → Item → Prop
  | value v, value w => v.Stays w
  | i, j => j = i

theorem stays_followAll (ws : List Write) (i : Item) : i.Stays (i.followAll ws) := by
  cases i with
  | pending t intent? => exact followAll_pending ws t intent?
  | value v =>
    rw [followAll_value]
    exact v.stays_followAll ws
  | location l? => exact followAll_location ws l?

def isLocation : Item → Bool
  | location _ => true
  | _ => false

def isValue : Item → Bool
  | value _ => true
  | _ => false

end Item

theorem Node.leavesPlace_toTerm (n : Node) (intent? : Option Intent) :
    n.toTerm.leavesPlace intent? = true ↔
      intent? = some .write ∧ n.kind ≠ "expressionstatement" := by
  obtain ⟨kind, fields, line, column⟩ := n
  rw [Node.toTerm, Term.build, Node.kind]
  by_cases hkind : kind = "expressionstatement"
  · subst hkind
    simp [Term.leavesPlace]
  · dsimp only
    split
    case h_2 => exact absurd rfl hkind
    all_goals simp [Term.leavesPlace, hkind]

namespace Run

open Environment

/-- Evaluating the top of the stack. A node gives way to one result: a place if it was to be written
and is no statement, else a value. Every item below stays: an item that sees a stored array shows
what was written to that array meanwhile, all others are untouched. A result stays as it is. -/
theorem evaluate_replaces_top (m : Machine) (below : List Item) :
    (∀ (n : Node) (intent? : Option Intent) (m' : Machine),
      m.stack = .pending n.toTerm intent? :: below → evaluate.outcome m = (.ok (), m') →
      ∃ item writes, m.env.Effect writes m'.env ∧
        m'.stack = item :: below.map (Item.followAll writes) ∧
        (∀ i ∈ below, i.Stays (i.followAll writes)) ∧
        if intent? = some .write ∧ n.kind ≠ "expressionstatement" then item.isLocation
        else item.isValue) ∧
    ∀ item : Item, item.isLocation ∨ item.isValue → m.stack = item :: below →
      evaluate.outcome m = (.ok (), m) := by
  constructor
  · intro n intent? m' hstack hrun
    have hready : Contract.free.strict → n.toTerm.Ready intent? := False.elim
    have hyields := Contract.yields_eval n.toTerm intent? hready
    have hends : Ends evaluate m
        (fun _ => Contract.free.Has { m with stack := below } [] 0 (n.toTerm.leavesPlace intent?))
        (fun _ _ => True) := by
      simp only [evaluate, ends_bind, ends_pop hstack]
      refine (Contract.ends_within_stop _ (hyields _ _ _ _ ?_)).mono (fun _ _ h => h)
        fun _ _ _ => trivial
      exact Contract.At.start (Contract.free_env _)
    obtain ⟨item, rest, hstack', hat, hresult⟩ := hends.of_ok hrun
    obtain ⟨writes, heffect, -, hrest⟩ := hat.follows
    refine ⟨item, writes, heffect, ?_, fun i _ => i.stays_followAll writes, ?_⟩
    · rw [hstack']
      exact congrArg (item :: ·) hrest
    · split
      · rename_i hplace
        rw [(n.leavesPlace_toTerm intent?).2 hplace] at hresult
        cases item with
        | location _ => rfl
        | value _ => simp [Contract.Result] at hresult
        | pending _ _ => exact hresult.elim
      · rename_i hplace
        rw [← n.leavesPlace_toTerm intent?, Bool.not_eq_true] at hplace
        rw [hplace] at hresult
        cases item with
        | value _ => rfl
        | location _ => simp [Contract.Result] at hresult
        | pending _ _ => exact hresult.elim
  · rintro item hresolved hstack
    have hsame : { m with stack := item :: below } = m := by rw [← hstack]
    have hends : Ends evaluate m (fun _ m' => m' = m) (fun _ _ => False) := by
      simp only [evaluate, ends_bind, ends_pop hstack]
      cases item with
      | value _ | location _ => exact hsame
      | pending _ _ => simp [Item.isLocation, Item.isValue] at hresolved
    obtain ⟨_, m', hr, rfl⟩ := hends.returns
    exact hr

/-- The tree of `$a['k']`. -/
def elementTree : Node :=
  .mk "offsetlookup" [("what", .node (.mk "variable" [("name", .string "$a")] .null none)),
    ("offset", .node (.mk "string" [("value", .string "k")] .null none))] .null none

/-- An element that is to be made, over a value that waits below. -/
theorem evaluate_replaces_element :
    ∃ m', evaluate.outcome ⟨.init, [.pending elementTree.toTerm (some .write),
        .value (.fresh .null)], [], "", []⟩ = (.ok (), m') ∧
      ∃ item writes, Effect .init writes m'.env ∧
        m'.stack = item :: [Item.value (.fresh .null)].map (Item.followAll writes) ∧
        item.isLocation := by
  have hok : (evaluate.outcome ⟨.init, [.pending elementTree.toTerm (some .write),
      .value (.fresh .null)], [], "", []⟩).1.isOk = true := by decide +kernel
  obtain ⟨⟨⟩, m', hrun⟩ := exists_of_isOk hok
  obtain ⟨item, writes, heffect, hstack, -, hplace⟩ := (evaluate_replaces_top _ _).1 _ _ m' rfl hrun
  rw [if_pos ⟨rfl, by decide⟩] at hplace
  exact ⟨m', hrun, item, writes, heffect, hstack, hplace⟩

end Run

end PhpInterpreter
