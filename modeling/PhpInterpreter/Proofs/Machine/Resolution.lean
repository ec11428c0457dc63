import PhpInterpreter.Proofs.Machine.Reading
import PhpInterpreter.Proofs.Machine.Write
import PhpInterpreter.Proofs.Value.Growth

/-!
Resolving the target of an assignment, from its root down the levels that are left of its
subscripts. Elements and arrays are made level by level, before the later levels are looked at; but
below a place that was just made there is only null, where no level can fail. So resolving makes the
place it leads to, or changes nothing at all.
-/

namespace PhpInterpreter

open Run Environment

/-! ## Roots -/

/-- A target without its subscripts. -/
def Term.root : Term → Term
  | .subscript _ base _ => root base
  | t => t

theorem Term.evalRoot_root (t : Term) : t.root.evalRoot = t.evalRoot := by
  fun_induction Term.root t with
  | case1 h base key ih => rw [ih, Term.evalRoot]
  | case2 => rfl

theorem Term.root_ne_subscript (t : Term) (h : Head) (base key : Term) :
    t.root ≠ .subscript h base key := by
  fun_induction Term.root t with
  | case1 _ _ _ ih => exact ih
  | case2 t hsubscript => exact hsubscript h base key

/-- The term is that of an expression, and so are the bases of its subscripts. -/
def Term.IsExpression : Term → Prop
  | .subscript _ base _ => base.IsExpression
  | .literal .. | .variable .. | .array .. | .unary .. | .binary .. | .assign .. => True
  | _ => False

theorem Term.IsExpression.root_ne_statement {t : Term} (ht : t.IsExpression) (h : Head)
    (e : Term) : t.root ≠ .statement h e := by
  fun_induction Term.root t with
  | case1 _ base key ih => exact ih ht
  | case2 t hsubscript =>
    rintro rfl
    exact ht

theorem Term.isExpression_withHead (t : Term) (h : Head) :
    (t.withHead h).IsExpression ↔ t.IsExpression := by
  cases t <;> rfl

theorem Term.IsExpression.byref_withHead {t : Term} (ht : t.IsExpression) (h : Head) :
    (t.withHead h).byref = h.byref := by
  cases t with
  | absent | foreign => exact ht.elim
  | _ => rfl

theorem Source.Expr.isExpression_toNode {e : Source.Expr} {n : Node} (h : e.toNode = .ok n) :
    n.toTerm.IsExpression := by
  cases e with
  | «variable» | number | boolean | null =>
    obtain rfl := Except.ok.inj h
    exact trivial
  | string _ raw =>
    obtain ⟨text, -, h⟩ := exists_of_bind_eq_ok h
    obtain rfl := Except.ok.inj h
    exact trivial
  | array _ _ entries =>
    obtain ⟨items, -, h⟩ := exists_of_bind_eq_ok h
    obtain rfl := Except.ok.inj h
    exact trivial
  | subscript _ base key =>
    obtain ⟨b, hb, h⟩ := exists_of_bind_eq_ok h
    obtain ⟨k, -, h⟩ := exists_of_bind_eq_ok h
    obtain rfl := Except.ok.inj h
    have hbase : b.toTerm.IsExpression := Source.Expr.isExpression_toNode hb
    exact hbase
  | append _ base =>
    obtain ⟨b, hb, h⟩ := exists_of_bind_eq_ok h
    obtain rfl := Except.ok.inj h
    have hbase : b.toTerm.IsExpression := Source.Expr.isExpression_toNode hb
    exact hbase
  | unary _ _ operand =>
    obtain ⟨b, -, h⟩ := exists_of_bind_eq_ok h
    obtain rfl := Except.ok.inj h
    exact trivial
  | binary _ _ left right | assign _ _ left right | reference _ left right =>
    obtain ⟨l, -, h⟩ := exists_of_bind_eq_ok h
    obtain ⟨r, -, h⟩ := exists_of_bind_eq_ok h
    obtain rfl := Except.ok.inj h
    exact trivial

/-! ## Places that are made -/

namespace Environment

variable {e e' e₁ : Environment} {x name : String} {root l : Location} {old v : Value}
  {keys : List (Option Key)} {path : List Key}

/-- The environment `e'` is `e` with the place `l` of the variable `x` made, if it was not there:
the variable is declared, and its cell holds what it held, with null put under the path of `l` if
there was nothing. -/
structure Made (e : Environment) (x : String) (keys : List (Option Key)) (l : Location)
    (e' : Environment) : Prop where
  cell : ∃ root e₁ c, (Scoped.declare x none).run.run e = (.ok root, e₁) ∧
    l = { root with path := l.path } ∧
    ((e.value? root.scope root.slot).getD .null).put? l.path (e.load l).defined = some c ∧
    e' = Scoped.written root c e₁
  placed : e.Placed keys l (e.load l).defined e'
  present : e'.load l ≠ .undefined
  found : e.load l ≠ .undefined → e' = e

/-- Declaring a name changes nothing if it fails, or if the name has a cell. -/
theorem Indexed.ends_declare_run (h : Indexed e) (name : String) :
    Ends (Scoped.declare name none) e
      (fun root e₁ => (Scoped.declare name none).run.run e = (.ok root, e₁) ∧
        (e.value? root.scope root.slot ≠ none → e₁ = e)) fun _ e₁ => e₁ = e := by
  have hends : Ends (Scoped.declare name none) e
      (fun root e₁ => e.value? root.scope root.slot ≠ none → e₁ = e) fun _ e₁ => e₁ = e := by
    rw [Scoped.ends_declare]
    refine ⟨fun _ => rfl, fun s hs => ⟨fun _ hsome => ?_, fun _ _ => ⟨fun _ => rfl, ?_⟩⟩⟩
    · obtain ⟨v, hv⟩ := Option.ne_none_iff_exists'.1 hsome
      exact absurd (h.slot_lt _ _ (holds_iff.2 ⟨v, hv⟩)) (Int.lt_irrefl _)
    · exact fun _ _ _ => rfl
  rw [ends_iff] at hends ⊢
  exact ⟨fun root e₁ hr => ⟨hr, hends.1 root e₁ hr⟩, hends.2⟩

end Environment

namespace Run

theorem reads_character (level : Level) (l : Location) (s : String) :
    Reads (character level l s) := by
  unfold character
  split
  · exact reads_throw _
  · split
    · exact reads_throw _
    · rename_i key _
      have hlast : ∀ offset position : Int, Reads (do
          if position < 0 then
            noting level.place.line false
              (Noting.mention false ((integerText offset).map .offsetBeforeStart))
          return l.atChar position) := by
        intro offset position
        split
        · exact (reads_noting _ _ _).bind fun _ => reads_pure _
        · exact reads_pure _
      cases key with
      | int n => exact (reads_pure n).bind fun offset => hlast offset _
      | str k =>
        exact (reads_noting _ _ _).bind fun _ => (reads_pure 0).bind fun offset => hlast offset _

end Run

/-! ## The way down -/

section Down

open Scoped (written)

variable {e e₁ : Environment} {root l : Location} {old c : Value} {m : Machine} {path : List Key}
  {t : Table Value}

/-- In the environment `e` a name was declared, which led to `e₁` and the cell of `root`; the cell
held `old`, or is new. -/
structure Entered (e e₁ : Environment) (root : Location) (old : Value) : Prop where
  whole : root.char? = none
  old_eq : (e.value? root.scope root.slot).getD .null = old
  cell : e₁.value? root.scope root.slot = some old
  tidy : old.Tidy fun _ => True

/-- Where resolving has led: to a place in the cell of `root`, which was made if it was not there,
or to no whole place, and then nothing was made. -/
inductive Arrives (e e₁ : Environment) (root : Location) (old : Value) :
    Option Location → Machine → Prop
  | place {path : List Key} {c : Value} {m : Machine}
      (hput : old.put? path (e.load { root with path := path }).defined = some c)
      (hm : m.env = written root c e₁)
      (hfound : e.load { root with path := path } ≠ .undefined → m.env = e) :
      Arrives e e₁ root old (some { root with path := path }) m
  | off {l? : Option Location} {m : Machine} (hl : ∀ l, l? = some l → l.char? ≠ none)
      (hm : m.env = e) : Arrives e e₁ root old l? m

theorem Arrives.nowhere (hm : m.env = e) : Arrives e e₁ root old none m :=
  .off (by simp) hm

namespace Entered

/-- What is put under a path is found there. -/
theorem load_put? (h : Entered e e₁ root old) {w : Value} (hput : old.put? path w = some c)
    (hm : m.env = written root c e₁) : m.env.load { root with path := path } = w := by
  rw [hm, load_written h.cell h.whole, Value.descend_put? hput]

theorem table?_load (h : Entered e e₁ root old) (path : List Key) :
    (e.load { root with path := path }).table? = (old.descend path).table? := by
  rw [load_getD h.whole, ← h.old_eq, Value.table?_descend_getD_null]

theorem load_child (h : Entered e e₁ root old)
    (ht : (e.load { root with path := path }).table? = some t) (k : Key) :
    e.load { root with path := path ++ [k] } = (t.get? k).getD .undefined := by
  rw [load_getD h.whole] at ht ⊢
  rw [Value.descend_append, Value.descend_cons ht, Value.descend]

/-- What is in the cell where there was something. -/
theorem descend_eq (h : Entered e e₁ root old)
    (hload : e.load { root with path := path } ≠ .undefined) :
    old.descend path = e.load { root with path := path } := by
  rw [load_getD h.whole] at hload ⊢
  rw [← h.old_eq]
  cases hv : e.value? root.scope root.slot with
  | some v => rfl
  | none =>
    rw [hv] at hload
    exact absurd (Value.descend_undefined path) hload

theorem put?_load (h : Entered e e₁ root old)
    (hload : e.load { root with path := path } ≠ .undefined) :
    old.put? path (e.load { root with path := path }).defined = some old := by
  have heq := h.descend_eq hload
  rw [Value.defined_eq_self hload, ← heq]
  exact Value.put?_descend h.tidy (heq ▸ hload)

/-- A missing element of an array is made, with null. -/
theorem ends_make (h : Entered e e₁ root old)
    (ht : (e.load { root with path := path }).table? = some t)
    (hput : old.put? path (.array t) = some c) (hm : m.env = written root c e₁) {k : Key}
    (hk : t.get? k = none) :
    Ends (store { root with path := path ++ [k] } .null) m
      (fun _ m' => Arrives e e₁ root old (some { root with path := path ++ [k] }) m')
      fun _ _ => False := by
  have hload := h.load_child ht k
  rw [hk, Option.getD_none] at hload
  obtain ⟨c', hset, hput'⟩ := Value.put?_setAt? (q := [k]) (x := .null) hput (by rw [Value.setAt?])
  refine (ends_store_written h.cell h.whole hm hset).mono ?_ fun _ _ hf => hf
  rintro - m' ⟨hm', -⟩
  refine .place ?_ hm' fun hne => absurd hload hne
  rw [hload]
  exact (Value.put?_concat (h.table?_load path ▸ ht) k).trans hput'

/-- An element that is there is found, and nothing was made on the way to it. -/
theorem arrives_found (h : Entered e e₁ root old)
    (ht : (e.load { root with path := path }).table? = some t)
    (hput : old.put? path (.array t) = some c) (hm : m.env = written root c e₁)
    (hfound : e.load { root with path := path } = .array t → m.env = e) {k : Key} {w : Value}
    (hk : t.get? k = some w) :
    Arrives e e₁ root old (some { root with path := path ++ [k] }) m := by
  have harray := Value.eq_array ht hk
  have hsome : e.load { root with path := path } ≠ .undefined := by
    simp [harray]
  have hfull : old.descend path = .array t := (h.descend_eq hsome).trans harray
  have htidy := h.tidy.descend path (by simp [hfull])
  have hw := ((hfull ▸ htidy).entries _ (Assoc.mem_of_get? hk)).ne_undefined
  have hload := h.load_child ht k
  rw [hk, Option.getD_some] at hload
  have hc : c = old := by
    have hself := h.put?_load hsome
    rw [harray] at hself
    exact Option.some.inj (hput.symm.trans hself)
  exact .place (h.put?_load (hload ▸ hw)) (hc ▸ hm) fun _ => hfound harray

/-- The element of an array is found, or it is made. -/
theorem ends_element (h : Entered e e₁ root old)
    (ht : (e.load { root with path := path }).table? = some t)
    (hput : old.put? path (.array t) = some c) (hm : m.env = written root c e₁)
    (hfound : e.load { root with path := path } = .array t → m.env = e) (key? : Option Key) :
    Ends (element t { root with path := path } key?) m
      (fun l m' => Arrives e e₁ root old (some l) m') fun _ _ => False := by
  unfold element
  split
  · simp only [ends_bind, ends_pure]
    have hordered := h.tidy.ordered_descend (h.table?_load path ▸ ht)
    exact h.ends_make ht hput hm (Assoc.get?_eq_none_iff.2 hordered.next_notMem)
  · rename_i k
    have hcontains : t.contains k = (t.get? k).isSome := rfl
    rw [hcontains]
    cases hk : t.get? k with
    | none =>
      simp only [Option.isSome_none, Bool.not_false, if_true, ends_bind, ends_pure]
      exact h.ends_make ht hput hm hk
    | some w =>
      simp only [Option.isSome_some, Bool.not_true, Bool.false_eq_true, if_false, ends_pure]
      exact h.arrives_found ht hput hm hfound hk

/-- Null becomes an array, and the element is made in it. -/
theorem ends_null (h : Entered e e₁ root old)
    (hnull : (e.load { root with path := path }).defined = .null)
    (hput : old.put? path .null = some c) (hm : m.env = written root c e₁) (key? : Option Key) :
    Ends (store { root with path := path } (.array .empty) >>= fun _ =>
        element .empty { root with path := path } key?) m
      (fun l m' => Arrives e e₁ root old (some l) m') fun _ _ => False := by
  have hempty : (e.load { root with path := path }).table? = some .empty := by
    rw [← Value.table?_defined, hnull]
    rfl
  obtain ⟨c', hset, hput'⟩ :=
    Value.put?_setAt? (q := []) (x := .array .empty) hput (by rw [Value.setAt?])
  rw [List.append_nil] at hset
  rw [ends_bind]
  refine (ends_store_written h.cell h.whole hm hset).mono ?_ fun _ _ hf => hf
  rintro - m' ⟨hm', -⟩
  refine h.ends_element hempty hput' hm' (fun harray => ?_) key?
  rw [harray] at hnull
  cases hnull

/-- One level down. A level fails only at values that were there, where nothing was made. -/
theorem ends_descend (h : Entered e e₁ root old) {l? : Option Location}
    (hl : Arrives e e₁ root old l? m) (level : Level) :
    Ends (descend level l?) m (fun l? m' => Arrives e e₁ root old l? m')
      fun _ m' => m'.env = e := by
  cases hl with
  | off hl hm =>
    unfold descend
    split
    · exact .nowhere hm
    · rename_i l
      rw [if_pos (Option.isSome_iff_ne_none.2 (hl l rfl))]
      exact hm
  | @place path c m hput hm hfound =>
    have hload := h.load_put? hput hm
    -- A value that is not null was there before.
    have hsame : (e.load { root with path := path }).defined ≠ .null → m.env = e := by
      intro hnull
      apply hfound
      intro hnone
      exact hnull (by rw [hnone]; rfl)
    unfold descend
    dsimp only
    rw [if_neg (by simp [h.whole])]
    simp only [ends_bind, ends_load, hload]
    cases hw : (e.load { root with path := path }).defined with
    | undefined => exact absurd hw (Value.defined_ne_undefined _)
    | null =>
      rw [hw] at hput
      have hends := h.ends_null hw hput hm level.key?
      rw [ends_bind] at hends
      simp only [ends_bind, ends_pure]
      exact hends.mono (fun _ _ hl => hl.mono (fun _ _ hl => hl) fun _ _ hf => hf.elim)
        fun _ _ hf => hf.elim
    | array t =>
      rw [hw] at hput
      have harray : (e.load { root with path := path }).table? = some t := by
        rw [← Value.table?_defined, hw]
        rfl
      simp only [ends_bind, ends_pure]
      refine (h.ends_element harray hput hm ?_ level.key?).mono (fun _ _ hl => hl)
        fun _ _ hf => hf.elim
      exact fun _ => hsame (by simp [hw])
    | bool b | number n =>
      simp only [ends_bind, ends_pure]
      have henv := hsame (by simp [hw])
      refine (reads_noting _ _ _ m).mono (fun _ m' hm' => ?_) fun _ m' hm' => ?_
      · exact .nowhere (hm'.trans henv)
      · exact hm'.trans henv
    | string s =>
      simp only [ends_bind, ends_pure]
      have henv := hsame (by simp [hw])
      refine ((ends_character level _ s).and (reads_character level _ s m)).mono
        (fun l' m' hl' => ?_) fun _ m' hm' => hm'.2.trans henv
      refine .off ?_ (hl'.2.trans henv)
      rintro _ ⟨⟩
      exact hl'.1
    | object i c => exact hsame (by simp [hw])

/-- All levels down. -/
theorem ends_descendAll (h : Entered e e₁ root old) {l? : Option Location}
    (hl : Arrives e e₁ root old l? m) (levels : List Level) :
    Ends (descendAll levels l?) m (fun l? m' => Arrives e e₁ root old l? m')
      fun _ m' => m'.env = e := by
  induction levels generalizing l? m with
  | nil => exact hl
  | cons level rest ih =>
    simp only [descendAll, ends_bind, ends_located]
    exact (h.ends_descend hl level).mono (fun _ _ hl' => ih hl') fun _ _ hm' => hm'

end Entered

theorem Environment.Declares.entered {x : String} (h : Declares e x root e₁) (he : Reachable e) :
    Entered e e₁ root ((e.value? root.scope root.slot).getD .null) where
  whole := by
    obtain ⟨-, -, -, -, -, hwhole⟩ := h.bound
    exact hwhole
  old_eq := rfl
  cell := h.cell
  tidy := he.tidy

/-- The root of the way down: it has led to the cell of the variable. -/
theorem Entered.arrives_root (h : Entered e e₁ root old) (hpath : root.path = [])
    (hm : m.env = e₁) (hsame : e.value? root.scope root.slot ≠ none → e₁ = e) :
    Arrives e e₁ root old (some root) m := by
  have hroot : root = { root with path := [] } := by rw [← hpath]
  have hload : e.load { root with path := [] } =
      (e.value? root.scope root.slot).getD .undefined := by
    rw [load_getD h.whole, Value.descend]
  have hold : (e.load { root with path := [] }).defined = old := by
    have htidy := h.tidy
    rw [hload]
    rw [← h.old_eq] at htidy ⊢
    cases hv : e.value? root.scope root.slot with
    | none => rfl
    | some v => exact Value.defined_eq_self (by simpa [hv] using htidy.ne_undefined)
  rw [hroot]
  refine .place (c := old) ?_ (hm.trans (written_self h.cell).symm) fun hne => ?_
  · rw [hold, Value.put?_nil]
  · refine hm.trans (hsame fun hnone => hne ?_)
    rw [hload, hnone]
    rfl

end Down

/-! ## Resolving a target -/

/-- The way to the place of a target: its root, and down the levels. -/
def Run.resolve (root : Term) (levels : List Level) : Run (Option Location) :=
  root.evalRoot >>= descendAll levels

/-- What becomes of the environment `e` when a target with this root is resolved: a whole place is
made, if it was not there; if there is none, or a character, or a fault, nothing changes. -/
structure Resolved (e : Environment) (root : Term) (keys : List (Option Key))
    (r : Except Fault (Option Location)) (e' : Environment) : Prop where
  made : ∀ l, r = .ok (some l) → l.char? = none → ∃ h name x, root = .variable h name ∧
    variableName name = pure x ∧ e.Made x keys l e'
  kept : (∀ l, r = .ok (some l) → l.char? ≠ none) → e' = e

theorem resolved_self {e : Environment} {root : Term} {keys : List (Option Key)}
    {r : Except Fault (Option Location)} (hr : ∀ l, r = .ok (some l) → l.char? ≠ none) :
    Resolved e root keys r e :=
  ⟨fun l hl hchar => absurd hchar (hr l hl), fun _ => rfl⟩

theorem Under.placed {e e₁ : Environment} {log : List Diagnostic} {x : String} {root l : Location}
    {keys : List (Option Key)} {m : Machine} (hd : Declares e x root e₁)
    (h : Under e₁ log root ((e.value? root.scope root.slot).getD .null) keys (some l) m)
    (hchar : l.char? = none) : e.Placed keys l (m.env.load l) m.env := by
  obtain ⟨c, path, rfl, hm, -, halong⟩ := h l rfl hchar
  obtain ⟨-, -, -, -, -, hwhole⟩ := id hd.bound
  rw [hm, load_written hd.cell hwhole]
  exact hd.placed hwhole (halong.mono fun _ _ => rfl)

namespace Run

variable {m : Machine} {root : Term}

theorem ends_declareRoot (h : Head) (name : Datum) (hm : Indexed m.env) :
    Ends (Term.evalRoot (.variable h name)) m
      (fun l? m' => ∃ x root, variableName name = pure x ∧ l? = some root ∧
        (Scoped.declare x none).run.run m.env = (.ok root, m'.env) ∧
        (m.env.value? root.scope root.slot ≠ none → m'.env = m.env))
      fun _ m' => m'.env = m.env := by
  obtain ⟨x, hx⟩ | ⟨e, he⟩ | ⟨b, hb⟩ := variableName_cases name
  · simp only [Term.evalRoot, variableBody, hx, ends_bind, ends_located, ends_pure, ends_inScope,
      ends_pushLocation]
    refine (hm.ends_declare_run x).mono (fun root e' hd => ?_) fun _ _ he => he
    rw [ends_popLocation rfl]
    exact ⟨x, root, rfl, rfl, hd⟩
  · simp only [Term.evalRoot, variableBody, he, ends_bind, ends_located, ends_fatal]
  · simp only [Term.evalRoot, variableBody, hb, ends_bind, ends_located, ends_breach]

theorem ends_arrives (h : Head) (name : Datum) (levels : List Level) (hm : Reachable m.env) :
    Ends (resolve (.variable h name) levels) m
      (fun l? m' => ∃ x root e₁, variableName name = pure x ∧
        (Scoped.declare x none).run.run m.env = (.ok root, e₁) ∧
        Entered m.env e₁ root ((m.env.value? root.scope root.slot).getD .null) ∧
        Arrives m.env e₁ root ((m.env.value? root.scope root.slot).getD .null) l? m')
      fun _ m' => m'.env = m.env := by
  have hindexed := hm.attained.indexed
  rw [resolve, ends_bind]
  refine (ends_declareRoot h name hindexed).mono ?_ fun _ _ he => he
  rintro _ m' ⟨x, root, hx, rfl, hr, hsame⟩
  have hd := (hindexed.ends_declare x).of_ok hr
  obtain ⟨-, -, -, -, hpath, -⟩ := id hd.bound
  have hentered := hd.entered hm
  have hstart := hentered.arrives_root hpath rfl hsame
  exact (hentered.ends_descendAll hstart levels).mono
    (fun _ _ hl => ⟨x, root, m'.env, hx, hr, hentered, hl⟩) fun _ _ he => he

/-- Only variables are roots of places. -/
theorem ends_evalRoot_refused (hsubscript : ∀ h base key, root ≠ .subscript h base key)
    (hstatement : ∀ h t, root ≠ .statement h t) (hvariable : ∀ h name, root ≠ .variable h name) :
    Ends root.evalRoot m (fun _ _ => False) fun _ m' => m'.env = m.env := by
  cases root with
  | subscript h base key => exact absurd rfl (hsubscript h base key)
  | statement h t => exact absurd rfl (hstatement h t)
  | «variable» h name => exact absurd rfl (hvariable h name)
  | absent | foreign => exact rfl
  | _ =>
    rw [Term.evalRoot]
    · simp [within, Term.head?]
    all_goals simp

/-- A target whose root is no statement is resolved, or nothing changes. -/
theorem ends_resolved (hsubscript : ∀ h base key, root ≠ .subscript h base key)
    (hstatement : ∀ h t, root ≠ .statement h t) (hm : Reachable m.env) (levels : List Level) :
    Ends (resolve root levels) m
      (fun l? m' => Resolved m.env root (levels.map (·.key?)) (.ok l?) m'.env)
      fun _ m' => m'.env = m.env := by
  by_cases hvariable : ∃ h name, root = .variable h name
  · obtain ⟨h, name, rfl⟩ := hvariable
    refine ((ends_arrives h name levels hm).and (ends_resolve h name levels hm)).mono ?_
      fun _ _ he => he.1
    rintro l? m' ⟨⟨x, root, e₁, hx, hr, hentered, harrives⟩, x', root', e', -, hd, hunder⟩
    cases harrives with
    | off hl henv =>
      rw [henv]
      exact resolved_self fun l hl' => hl l (Except.ok.inj hl')
    | @place path c m' hput henv hfound =>
      refine ⟨?_, fun hchar => absurd hentered.whole (hchar { root with path := path } rfl)⟩
      rintro _ ⟨⟩ -
      have hload := hentered.load_put? hput henv
      have hplaced := hunder.placed hd hentered.whole
      rw [hload] at hplaced
      refine ⟨h, name, x, rfl, hx, ⟨root, e₁, c, hr, rfl, hput, henv⟩, hplaced, ?_, hfound⟩
      rw [hload]
      exact Value.defined_ne_undefined _
  · rw [resolve, ends_bind]
    refine (ends_evalRoot_refused hsubscript hstatement fun h name hroot => ?_).mono
      (fun _ _ hf => hf.elim) fun _ _ he => he
    exact hvariable ⟨h, name, hroot⟩

/-- The outcome of resolving a target that is an expression. -/
theorem resolved_outcome {target : Term} (ht : target.IsExpression) (hm : Reachable m.env)
    (levels : List Level) :
    Resolved m.env target.root (levels.map (·.key?)) ((resolve target.root levels).outcome m).1
      ((resolve target.root levels).outcome m).2.env := by
  have hends := ends_resolved target.root_ne_subscript ht.root_ne_statement hm levels
  rcases hrun : (resolve target.root levels).outcome m with ⟨r, m'⟩
  cases r with
  | ok l? => exact hends.of_ok hrun
  | error f =>
    rw [hends.of_error hrun]
    exact resolved_self (by simp)

end Run

/-! ## Expressions that are evaluated to be written -/

namespace Run

variable {m : Machine} {target : Term} {R : Unit → Machine → Prop} {F : Machine → Prop}

/-- An expression that is evaluated to be written is resolved after its keys are evaluated. -/
theorem ends_eval_write (ht : target.IsExpression)
    (h : Ends target.evalKeys m (fun levels m₁ => Ends (resolve target.root levels) m₁
      (fun l? m₂ => R () { m₂ with stack := .location l? :: m₂.stack }) fun _ => F) fun _ => F) :
    Ends (target.eval (some .write)) m R fun _ => F := by
  cases target with
  | absent | foreign | program | statement | echo | global | unset | entry | other => exact ht.elim
  | subscript head base key =>
    simp only [Term.evalKeys, resolve, Term.root, Term.evalRoot_root, ends_bind, ends_pure] at h
    simp only [Term.eval, ends_bind, ends_pushLocation]
    exact h
  | «variable» head name =>
    simp only [Term.evalKeys, resolve, Term.root, Term.evalRoot, descendAll, ends_bind, ends_pure,
      ends_located] at h
    obtain ⟨x, hx⟩ | ⟨e, he⟩ | ⟨b, hb⟩ := variableName_cases name
    · simp only [Term.eval, variableBody, hx, ends_bind, ends_pure, ends_inScope,
        ends_pushLocation] at h ⊢
      refine h.mono (fun root e' h' => ?_) fun _ _ hf => hf
      rwa [ends_popLocation rfl] at h'
    · simpa only [Term.eval, variableBody, he, ends_bind, ends_fatal] using h
    · simpa only [Term.eval, variableBody, hb, ends_bind, ends_breach] using h
  | _ =>
    simpa [Term.eval, writable, Term.evalKeys, resolve, Term.root, Term.evalRoot, within,
      Term.head?] using h

theorem ends_within_same (t : Term) {act : Run Unit} (h : Ends act m R fun _ => F) :
    Ends (within t act) m R fun _ => F := by
  unfold within
  split
  · rw [ends_located]
    exact h
  · exact h

end Run

end PhpInterpreter
