import PhpInterpreter.Number.Literal
import PhpInterpreter.Proofs.Outcome
import PhpInterpreter.Proofs.Source.Complete
import PhpInterpreter.Proofs.Source.Relocation

/-!
Lines under other numbers. A renumbering of lines moves the places of trees, terms, errors and
remarks; what a term is evaluated with besides its places does not change.
-/

namespace PhpInterpreter

/-! ## Moved terms -/

section

variable (f : Place → Place)

def Head.mapPlace (h : Head) : Head := { h with place := f h.place }

mutual

/-- The term with every place moved. -/
def Term.mapPlace : Term → Term
  | .absent => .absent
  | .foreign => .foreign
  | .program h iterable ts => .program (h.mapPlace f) iterable (Term.mapPlaces ts)
  | .statement h e => .statement (h.mapPlace f) e.mapPlace
  | .echo h iterable ts => .echo (h.mapPlace f) iterable (Term.mapPlaces ts)
  | .global h iterable ts => .global (h.mapPlace f) iterable (Term.mapPlaces ts)
  | .unset h iterable ts => .unset (h.mapPlace f) iterable (Term.mapPlaces ts)
  | .literal h d => .literal (h.mapPlace f) (d.mapPlace f)
  | .variable h name => .variable (h.mapPlace f) (name.mapPlace f)
  | .array h iterable ts => .array (h.mapPlace f) iterable (Term.mapPlaces ts)
  | .entry h key value => .entry (h.mapPlace f) key.mapPlace value.mapPlace
  | .subscript h base key => .subscript (h.mapPlace f) base.mapPlace key.mapPlace
  | .unary h op operand => .unary (h.mapPlace f) (op.mapPlace f) operand.mapPlace
  | .binary h op left right => .binary (h.mapPlace f) (op.mapPlace f) left.mapPlace right.mapPlace
  | .assign h op target value =>
    .assign (h.mapPlace f) (op.mapPlace f) target.mapPlace value.mapPlace
  | .other h => .other (h.mapPlace f)

def Term.mapPlaces : List Term → List Term
  | [] => []
  | t :: rest => t.mapPlace :: Term.mapPlaces rest

end

theorem Term.mapPlaces_eq_map (ts : List Term) :
    Term.mapPlaces f ts = ts.map (Term.mapPlace f) := by
  induction ts with
  | nil => rfl
  | cons t rest ih => rw [Term.mapPlaces, ih, List.map_cons]

@[simp] theorem Term.head?_mapPlace (t : Term) :
    (t.mapPlace f).head? = t.head?.map (Head.mapPlace f) := by
  cases t <;> rfl

@[simp] theorem Term.kind?_mapPlace (t : Term) : (t.mapPlace f).kind? = t.kind? := by
  cases t <;> rfl

@[simp] theorem Term.isAbsent_mapPlace (t : Term) : (t.mapPlace f).isAbsent = t.isAbsent := by
  cases t <;> rfl

@[simp] theorem Term.byref_mapPlace (t : Term) : (t.mapPlace f).byref = t.byref := by
  cases t <;> rfl

/-! ## Moved data -/

@[simp] theorem Datum.truthy_mapPlace (d : Datum) : (d.mapPlace f).truthy = d.truthy := by
  cases d with
  | list items => cases items <;> rfl
  | _ => rfl

mutual

theorem Datum.display_mapPlace : ∀ d : Datum, (d.mapPlace f).display = d.display
  | .scalar _ => rfl
  | .list items => by
    rw [Datum.mapPlace, Datum.display, Datum.display, Datum.displayItems_mapPlaces items]
  | .dict _ => rfl
  | .node n => Node.display_mapPlace n

theorem Node.display_mapPlace : ∀ n : Node, (n.mapPlace f).display = n.display
  | .mk kind fields _ _ => by
    rw [Node.mapPlace, Node.display, Node.display, Node.displayFields_mapPlaces fields]

theorem Datum.displayItems_mapPlaces : ∀ ds : List Datum,
    Datum.displayItems (Datum.mapPlaces f ds) = Datum.displayItems ds
  | [] => rfl
  | d :: rest => by
    rw [Datum.mapPlaces, Datum.displayItems, Datum.displayItems, Datum.display_mapPlace d,
      Datum.displayItems_mapPlaces rest]

theorem Node.displayFields_mapPlaces : ∀ fields : List (String × Datum),
    Node.displayFields (Node.mapPlaces f fields) = Node.displayFields fields
  | [] => rfl
  | (name, d) :: rest => by
    rw [Node.mapPlaces, Node.displayFields, Node.displayFields, Datum.display_mapPlace d,
      Node.displayFields_mapPlaces rest]

end

@[simp] theorem Datum.shown_mapPlace (d : Datum) : (d.mapPlace f).shown = d.shown := by
  cases d with
  | scalar v => rfl
  | list items => exact Datum.display_mapPlace f (.list items)
  | dict members => rfl
  | node n => exact Datum.display_mapPlace f (.node n)

@[simp] theorem Datum.isNull_mapPlace (d : Datum) : (d.mapPlace f).isNull = d.isNull := by
  cases d <;> rfl

@[simp] theorem Datum.toText_mapPlace (d : Datum) : (d.mapPlace f).toText = d.toText := by
  simp [Datum.toText]

@[simp] theorem Datum.toBool_mapPlace (d : Datum) : (d.mapPlace f).toBool = d.toBool := by
  cases d with
  | scalar v => rfl
  | list items => cases items <;> rfl
  | _ => rfl

@[simp] theorem Datum.toNumber_mapPlace (d : Datum) : (d.mapPlace f).toNumber = d.toNumber := by
  have hshown := d.shown_mapPlace f
  cases d with
  | scalar v => rfl
  | list _ | dict _ | node _ =>
    rw [Datum.toNumber, Datum.toNumber, hshown] <;> nofun

@[simp] theorem Run.isPlain_mapPlace (d : Datum) : isPlain (d.mapPlace f) = isPlain d := by
  have htruthy := d.truthy_mapPlace f
  cases d with
  | scalar v => rfl
  | list _ | dict _ | node _ => exact congrArg (! ·) htruthy

@[simp] theorem Run.ofDatum_mapPlace {α : Type} (ofSymbol? : String → Option α) (d : Datum) :
    Operator.ofDatum ofSymbol? (d.mapPlace f) = Operator.ofDatum ofSymbol? d := by
  have hshown := d.shown_mapPlace f
  cases d with
  | node n => exact congrArg Operator.unknown hshown
  | _ => rfl

@[simp] theorem Run.variableName_mapPlace (d : Datum) :
    variableName (d.mapPlace f) = variableName d := by
  cases d <;> rfl

/-! ## Terms of moved trees -/

def Term.Reading.mapPlace (r : Term.Reading) : Term.Reading :=
  ⟨r.raw.mapPlace f, r.term.mapPlace f, r.iterable, Term.mapPlaces f r.items⟩

theorem Term.build_mapPlace (h : Head) {fields moved : List (String × Reading)}
    (hread : ∀ name, (Assoc.get? name moved).getD .missing =
      ((Assoc.get? name fields).getD .missing).mapPlace f) :
    build (h.mapPlace f) moved = (build h fields).mapPlace f := by
  obtain ⟨kind, place, byref⟩ := h
  unfold build
  dsimp only [Head.mapPlace]
  simp only [hread, Reading.mapPlace, Datum.isNull_mapPlace]
  split <;> simp only [Term.mapPlace, Head.mapPlace]
  -- The operands of `echo` stand in one of two fields.
  split <;> rfl

theorem Term.mapPlaces_foreign {α : Type} (l : List α) :
    Term.mapPlaces f (l.map fun _ => .foreign) = l.map fun _ => .foreign := by
  simp [Term.mapPlaces_eq_map, Term.mapPlace]

theorem Term.marked_mapPlaces (fields : List (String × Datum)) :
    Term.marked (Node.mapPlaces f fields) = Term.marked fields := by
  rw [Node.mapPlaces_eq_map, Term.marked, Term.marked, Assoc.get?_map]
  cases Assoc.get? "byref" fields with
  | none => rfl
  | some d => exact d.truthy_mapPlace f

mutual

/-- The term of a moved tree is its term, moved. -/
theorem Node.toTerm_mapPlace : ∀ n : Node, (n.mapPlace f).toTerm = n.toTerm.mapPlace f
  | .mk kind fields line column => by
    have hreadings := Node.readings_mapPlaces fields
    rw [Node.mapPlace, Node.toTerm, Node.toTerm, Term.marked_mapPlaces]
    refine Term.build_mapPlace f ⟨kind, ⟨line, column⟩, Term.marked fields⟩ fun name => ?_
    rw [hreadings, Assoc.get?_map]
    cases Assoc.get? name (Node.readings fields) <;> rfl

theorem Datum.toTerm_mapPlace : ∀ d : Datum, (d.mapPlace f).toTerm = d.toTerm.mapPlace f
  | .scalar v => by cases v <;> rfl
  | .list _ | .dict _ => rfl
  | .node n => Node.toTerm_mapPlace n

theorem Datum.toTerms_mapPlaces : ∀ ds : List Datum,
    Datum.toTerms (Datum.mapPlaces f ds) = Term.mapPlaces f (Datum.toTerms ds)
  | [] => rfl
  | d :: rest => by
    rw [Datum.mapPlaces, Datum.toTerms, Datum.toTerms, Term.mapPlaces, Datum.toTerm_mapPlace d,
      Datum.toTerms_mapPlaces rest]

theorem Node.readings_mapPlaces : ∀ fields : List (String × Datum),
    Node.readings (Node.mapPlaces f fields) =
      (Node.readings fields).map fun p => (p.1, p.2.mapPlace f)
  | [] => rfl
  | (name, d) :: rest => by
    rw [Node.mapPlaces, Node.readings_cons, Node.readings_cons, Node.readings_mapPlaces rest,
      List.map_cons]
    refine congrArg (fun r => (name, r) :: _) ?_
    match d with
    | .list items =>
      exact congrArg (Term.Reading.mk (.list (Datum.mapPlaces f items)) .foreign true)
        (Datum.toTerms_mapPlaces items)
    | .node n =>
      exact congrArg (fun t => Term.Reading.mk (.node (n.mapPlace f)) t false [])
        (Node.toTerm_mapPlace n)
    | .dict members =>
      exact congrArg (Term.Reading.mk (.dict members) .foreign true)
        (Term.mapPlaces_foreign f members).symm
    | .scalar (.string s) =>
      exact congrArg (Term.Reading.mk (.scalar (.string s)) .foreign true)
        (Term.mapPlaces_foreign f s.toList).symm
    | .scalar .null | .scalar (.bool _) | .scalar (.number _) => rfl

end

end

/-! ## Renumbered lines -/

/-- Other numbers for lines; what has no line keeps none. -/
structure Renumbering where
  line : Json → Json
  line_null : line .null = .null
  isNull_line : ∀ l, (line l).isNull = l.isNull

namespace Renumbering

/-- Every line keeps its number. -/
def same : Renumbering := ⟨id, rfl, fun _ => rfl⟩

variable (ν : Renumbering)

def place (p : Place) : Place := ⟨ν.line p.line, p.column⟩

def remark (d : Diagnostic) : Diagnostic := { d with line := ν.line d.line }

def fault : Fault → Fault
  | .error e => .error { e with place? := e.place?.map ν.place }
  | .crash c => .crash c

@[simp] theorem fault_fatal (e : Fatal) : ν.fault (.fatal e) = .fatal e := rfl

@[simp] theorem fault_breach (b : Breach) : ν.fault (.breach b) = .breach b := rfl

@[simp] theorem fault_crash (c : Crash) : ν.fault (.crash c) = .crash c := rfl

theorem fault_locate (p : Place) (f : Fault) :
    ν.fault (f.locate p) = (ν.fault f).locate (ν.place p) := by
  cases f with
  | error e =>
    obtain ⟨cause, place?⟩ := e
    cases place? with
    | some q => rfl
    | none =>
      simp only [Fault.locate, RunError.locate, fault, place, isNull_line, Option.isSome_none,
        Bool.false_or, Option.map_none]
      split <;> rfl
  | crash c => rfl

end Renumbering

end PhpInterpreter
