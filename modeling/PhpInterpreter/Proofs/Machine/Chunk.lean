import PhpInterpreter.Proofs.Machine.Nested
import PhpInterpreter.Proofs.Source.Chunk

/-!
A program in two parts. Running the text of both at once does what running one and then the other
does, but for the lines of the second, which are further down.
-/

namespace PhpInterpreter

/-! ## Statements one after the other -/

theorem Run.outcome_bind {α β : Type} (act : Run α) (f : α → Run β) (m : Machine) :
    (act >>= f).outcome m = match act.outcome m with
      | (.ok a, m') => (f a).outcome m'
      | (.error fault, m') => (.error fault, m') := by
  have hbind : (act >>= f).outcome m =
      (ExceptT.bindCont f (act.outcome m).1).run (act.outcome m).2 := rfl
  rw [hbind]
  generalize act.outcome m = p
  obtain ⟨r, m'⟩ := p
  cases r <;> rfl

theorem Run.statements_append (ts us : List Term) (v : Value) :
    statements (ts ++ us) v = statements ts v >>= statements us := by
  induction ts generalizing v with
  | nil => rfl
  | cons t rest ih => simp only [List.cons_append, statements, ih, bind_assoc]

theorem Node.run_eq {n : Node} {head : Head} {ts : List Term}
    (hterm : n.toTerm = .program head true ts) (m : Machine) :
    n.run m = (Run.statements ts .null).outcome m := by
  rw [Node.run, hterm]
  rfl

theorem Datum.toTerms_append (ds es : List Datum) :
    toTerms (ds ++ es) = toTerms ds ++ toTerms es := by
  induction ds with
  | nil => rfl
  | cons d rest ih => rw [List.cons_append, toTerms, toTerms, ih, List.cons_append]

namespace Renumbering

/-- Every line is `k` further down. -/
def down (k : Nat) : Renumbering where
  line
    | .scalar (.number (.int n)) => .scalar (.number (.int (n + k)))
    | l => l
  line_null := rfl
  isNull_line l := by
    split <;> rfl

theorem down_place (k : Nat) (pos : Source.Position) :
    (down k).place pos.place = (pos.down k).place := rfl

/-- The second outcome is the first with other lines, from the log on that both found. -/
structure Follows (ν : Renumbering) (before : List Diagnostic)
    (x y : Except Fault Value × Machine) : Prop where
  env : y.2.env = x.2.env
  output : y.2.output = x.2.output
  log : ∃ later, x.2.log = before ++ later ∧ y.2.log = before ++ later.map ν.remark
  error : ∀ f, x.1 = .error f → y.1 = .error (ν.fault f)
  ok : ∀ v, x.1 = .ok v → ∃ w, y.1 = .ok w

end Renumbering

namespace Comparison

variable {C : Comparison} {m m' : Machine}

theorem Both.follows {act act' : Run Value} {guard : Guard} {ν : Renumbering}
    {before : List Diagnostic} (h : (sharing guard ν before).Both act act' m m'
      fun _ _ t t' => (sharing guard ν before).Tied t t') :
    ν.Follows before (act.outcome m) (act'.outcome m') := by
  rcases paired_iff.1 h with ⟨a, b, t, t', hr, hr', ht⟩ | ⟨f, f', t, t', hr, hr', rfl, ht⟩
  · rw [Run.outcome, Run.outcome, hr, hr']
    exact ⟨ht.envs.1, ht.output, ht.log, fun _ hf => (by cases hf), fun _ _ => ⟨b, rfl⟩⟩
  · rw [Run.outcome, Run.outcome, hr, hr']
    refine ⟨ht.envs.1, ht.output, ht.log, fun f' hf => ?_, fun _ hv => (by cases hv)⟩
    rw [Except.error.inj hf]
    rfl

/-- What statements do does not depend on the result so far. -/
theorem Tied.statements_of {ts : List Term} (hm : C.Tied m m')
    (hg : ∀ t ∈ ts, t.GlobalsIn C.bond.global) (v w : Value) :
    C.Both (Run.statements ts v) (Run.statements (ts.map C.move) w) m m'
      fun _ _ t t' => C.Tied t t' := by
  cases ts with
  | nil => exact hm
  | cons t rest =>
    have hboth : C.Both (Run.statements (t :: rest) v) (Run.statements ((t :: rest).map C.move) v)
        m m' fun _ _ t t' => C.Tied t t' := hm.statements hg fun _ _ _ ht => ht
    exact hboth

end Comparison

/-! ## Trees one after the other -/

namespace Source

/-- The trees of statements followed by statements further down. -/
theorem Stmt.mapM_toNode_append {ss₁ ss₂ : List Stmt} {ns₁ ns₂ : List Node} (k : Nat)
    (h₁ : ss₁.mapM toNode = .ok ns₁) (h₂ : ss₂.mapM toNode = .ok ns₂) :
    (ss₁ ++ ss₂.map (mapPos (.down k))).mapM toNode =
      .ok (ns₁ ++ ns₂.map (Node.mapPlace (Renumbering.down k).place)) := by
  rw [List.mapM_append, relocate_mapM (toNode_mapPos (Renumbering.down_place k)), h₁, h₂]
  rfl

end Source

/-- A tree with the statements of two others, those of the second with other lines. -/
theorem Node.run_of_append {n n₁ n₂ : Node} {head head₁ head₂ : Head} {ts₁ ts₂ : List Term}
    {ν : Renumbering} (h₁ : n₁.toTerm = .program head₁ true ts₁)
    (h₂ : n₂.toTerm = .program head₂ true ts₂)
    (h : n.toTerm = .program head true (ts₁ ++ ts₂.map (Term.mapPlace ν.place)))
    (hg : ∀ t ∈ ts₂, t.GlobalsIn fun _ => True) (m : Machine) :
    (∀ f m₁, n₁.run m = (.error f, m₁) → n.run m = (.error f, m₁)) ∧
      ∀ v m₁, n₁.run m = (.ok v, m₁) → ν.Follows m₁.log (n₂.run m₁) (n.run m) := by
  rw [Node.run_eq h, Node.run_eq h₁, Run.statements_append, Run.outcome_bind]
  refine ⟨fun f m₁ hrun => by rw [hrun], fun v m₁ hrun => ?_⟩
  rw [hrun, Node.run_eq h₂]
  have hstart : (Comparison.sharing .none ν m₁.log).Tied m₁ m₁ :=
    .start trivial (Transcript.logs_after ..)
  exact (hstart.statements_of hg .null v).follows

/-- Two texts without tags, the second on the lines after the first, are one program: it has the
statements of the first and those of the second, further down, and running it does what running the
first and then, unless that stops, the second does. -/
theorem Node.run_chunks {s₁ s₂ : String} {n₁ n₂ : Node} (h₁ : Source.tree s₁ = .ok n₁)
    (h₂ : Source.tree s₂ = .ok n₂) (ht₁ : Source.Tagless s₁) (ht₂ : Source.Tagless s₂) :
    let ν := Renumbering.down (Source.lineCount s₁)
    ∃ n items₁ items₂, Source.tree (s₁ ++ "\n" ++ s₂) = .ok n ∧
      n₁.field "children" = .list items₁ ∧ n₂.field "children" = .list items₂ ∧
      n.field "children" = .list (items₁ ++ items₂.map (Datum.mapPlace ν.place)) ∧
      ∀ m, (∀ f m₁, n₁.run m = (.error f, m₁) → n.run m = (.error f, m₁)) ∧
        ∀ v m₁, n₁.run m = (.ok v, m₁) → ν.Follows m₁.log (n₂.run m₁) (n.run m) := by
  intro ν
  obtain ⟨p₁, hp₁, hn₁⟩ := Source.exists_of_tree h₁
  obtain ⟨p₂, hp₂, hn₂⟩ := Source.exists_of_tree h₂
  obtain ⟨head₁, ns₁, hns₁, hfield₁, hterm₁⟩ := Source.Program.toTerm_toNode hn₁
  obtain ⟨head₂, ns₂, hns₂, hfield₂, hterm₂⟩ := Source.Program.toTerm_toNode hn₂
  have hparse := Source.parse_append hp₁ hp₂ ht₁ ht₂
  have hmapM := Source.Stmt.mapM_toNode_append (Source.lineCount s₁) hns₁ hns₂
  obtain ⟨n, hn⟩ := Source.Program.exists_toNode _ hmapM
  obtain ⟨head, ns, hns, hfield, hterm⟩ := Source.Program.toTerm_toNode hn
  obtain rfl := Except.ok.inj (hns.symm.trans hmapM)
  have htree : Source.tree (s₁ ++ "\n" ++ s₂) = .ok n := by
    rw [Source.tree, hparse]
    exact hn
  rw [List.map_append, ← Source.mapPlaces_nodes] at hfield hterm
  rw [Datum.toTerms_append, Datum.toTerms_mapPlaces, Term.mapPlaces_eq_map] at hterm
  obtain ⟨head', ts₂, hterm₂', hg⟩ := Source.Program.globalsIn_toNode (P := fun _ => True)
    (Source.parse_sound hp₂) hn₂ fun _ _ => trivial
  obtain ⟨-, -, rfl⟩ := Term.program.inj (hterm₂'.symm.trans hterm₂)
  refine ⟨n, _, _, htree, hfield₁, hfield₂, ?_, Node.run_of_append hterm₁ hterm₂ hterm hg⟩
  rw [hfield, Datum.mapPlaces_eq_map]

/-- A text that ends in a comment and holds a close tag that is no token, and one that reads an
undefined name and stops on its second line. -/
theorem Node.run_chunks_comment :
    ∃ n₁ n₂ n v m₁, Source.tree "$a = '?>'; // more" = .ok n₁ ∧
      Source.tree "echo $b;\n$a = 1 / [];" = .ok n₂ ∧
      Source.tree ("$a = '?>'; // more" ++ "\n" ++ "echo $b;\n$a = 1 / [];") = .ok n ∧
      n₁.run .init = (.ok v, m₁) ∧
      (Renumbering.down 1).Follows m₁.log (n₂.run m₁) (n.run .init) := by
  have htagless : Source.Tagless "$a = '?>'; // more" ∧
      Source.Tagless "echo $b;\n$a = 1 / [];" := by decide +kernel
  have hok : (Source.tree "$a = '?>'; // more").toOption.map
      (fun n => (n.run .init).1.isOk) = some true ∧
      (Source.tree "echo $b;\n$a = 1 / [];").isOk = true := by decide +kernel
  cases h₁ : Source.tree "$a = '?>'; // more" with
  | error e =>
    rw [h₁] at hok
    cases hok.1
  | ok n₁ =>
    cases h₂ : Source.tree "echo $b;\n$a = 1 / [];" with
    | error e =>
      rw [h₂] at hok
      cases hok.2
    | ok n₂ =>
      rw [h₁] at hok
      obtain ⟨v, m₁, hrun⟩ := Run.exists_of_isOk (Option.some.inj hok.1)
      obtain ⟨n, items₁, items₂, htree, -, -, -, hruns⟩ :=
        Node.run_chunks h₁ h₂ htagless.1 htagless.2
      exact ⟨n₁, n₂, n, v, m₁, rfl, rfl, htree, hrun, (hruns .init).2 v m₁ hrun⟩

end PhpInterpreter
