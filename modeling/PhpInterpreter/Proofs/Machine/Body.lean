import PhpInterpreter.Proofs.Machine.Place

/-!
The bodies of evaluation within a contract. Each body, run with operands that leave one result each,
leaves one result itself; what a strict contract asks of the tree stands in its hypotheses.
-/

namespace PhpInterpreter

/-- The name at the root of a target, if there is one, is a name. -/
def Term.RootNamed : Term → Prop
  | .subscript _ base _ => base.RootNamed
  | .variable _ name => name.IsName
  | _ => True

theorem Term.isAbsent_of_ne {t : Term} (h : t ≠ .absent) : t.isAbsent = false := by
  cases t with
  | absent => exact (h rfl).elim
  | _ => rfl

namespace Contract

open Environment Run

variable {K : Contract} {m₀ m : Machine} {frame : Frame} {n : Nat} {place : Bool} {l : Location}
  {h : Head}

/-! ## Names -/

theorem ends_declare_names {e : Environment} {name : String} :
    Ends (Scoped.declare name none) e (fun l e' => e'.Names e'.current name l) fun _ _ => True := by
  rw [Scoped.ends_declare]
  refine ⟨fun _ => trivial, fun s hs => ⟨fun _ => Scoped.names_declared hs, fun slot hslot => ?_⟩⟩
  exact ⟨fun _ => trivial, fun o ho => ⟨s, hs, hslot, ho, rfl, rfl⟩⟩

theorem At.declare {name : String} {R : Location → Machine → Prop} (hm : K.At m₀ frame n m)
    (hR : ∀ l m', K.At m₀ frame n m' → K.Place m'.env l → R l m') :
    Ends (Run.inScope (Scoped.declare name none)) m R (K.Stop m₀) := by
  refine hm.inScope (a := .declare name none) trivial rfl (fun hs => ?_) fun l m' hm' hr => ?_
  · have hc := hm.env.consistent hs
    have hcurrent : m.env.Unreleased (none.getD m.env.current) := hc.current_open.unreleased
    exact (Scoped.ends_declare_consistent hc hcurrent).mono (fun _ _ _ => trivial)
      fun _ _ hf => hc.current_open.scope?_ne_none hf.2
  · have hnames := ends_declare_names.of_ok hr
    obtain ⟨s, hs, hname, ho, hpath, hchar⟩ := id hnames
    refine hR l m' hm' ⟨admits_of_whole hpath, fun _ _ => ⟨name, hnames⟩, fun hs => ?_⟩
    exact (hm'.env.consistent hs).valid_of_names hnames

theorem At.lookup {name : String} {R : Option Location → Machine → Prop} (hm : K.At m₀ frame n m)
    (hR : ∀ l?, R l? m) : Ends (Run.inScope (Scoped.lookup name none)) m R (K.Stop m₀) := by
  have hstrict : ∀ {b}, (K.strict → False) → K.Stop m₀ (.breach b) m :=
    fun hs => hm.stop (K.lenient hs _)
  rw [ends_inScope, Scoped.ends_lookup]
  refine ⟨fun hnone => hstrict fun hs => ?_, fun s hs => ⟨fun _ => hR _, fun slot hslot => ?_⟩⟩
  · exact (hm.env.consistent hs).current_open.scope?_ne_none hnone
  · refine ⟨fun hnone => hstrict fun hs' => ?_, fun o _ => hR _⟩
    have hc := hm.env.consistent hs'
    obtain ⟨j, hj⟩ := (hc.fits _ s hs).named _ slot (Assoc.mem_of_get? hslot)
    simp [(hc.owner_iff slot j).2 hj] at hnone

theorem At.unset {name : String} {R : Unit → Machine → Prop} (hm : K.At m₀ frame n m)
    (hR : ∀ m', K.At m₀ frame n m' → R () m') :
    Ends (Run.inScope (Scoped.unset name none)) m R (K.Stop m₀) := by
  refine hm.inScope (a := .unset name none) trivial rfl (fun hs => ?_) fun _ m' hm' _ => hR m' hm'
  have hc := hm.env.consistent hs
  exact (Scoped.ends_unset_consistent hc).mono (fun _ _ _ => trivial)
    fun _ _ hf => hc.current_open.scope?_ne_none hf.2

theorem At.bindGlobal {name : String} {R : Location → Machine → Prop} (hm : K.At m₀ frame n m)
    (hR : ∀ l m', K.At m₀ frame n m' → R l m') :
    Ends (Run.inScope (Scoped.bindGlobal name)) m R (K.Stop m₀) := by
  refine hm.inScope (a := .bindGlobal name) trivial rfl (fun hs => ?_) fun l m' hm' _ => hR l m' hm'
  exact (Scoped.ends_bindGlobal_consistent (hm.env.consistent hs)).mono (fun _ _ _ => trivial)
    fun _ _ hf => hf

theorem At.bind {name : String} {R : Unit → Machine → Prop} (hm : K.At m₀ frame n m)
    (hl : K.Place m.env l) (hpath : l.path = []) (hchar : l.char? = none)
    (hR : ∀ m', K.At m₀ frame n m' → R () m') :
    Ends (Run.inScope (Scoped.bind name l none)) m R (K.Stop m₀) := by
  have hnamed := hl.named hpath hchar
  refine hm.inScope (a := .bind name l none) hnamed rfl (fun hs => ?_) fun _ m' hm' _ => hR m' hm'
  have hc := hm.env.consistent hs
  obtain ⟨source, hsource⟩ := hnamed
  have hcurrent : m.env.Unreleased (none.getD m.env.current) := hc.current_open.unreleased
  exact (Scoped.ends_bind_consistent hc hcurrent hcurrent hsource).mono (fun _ _ _ => trivial)
    fun _ _ hf => hc.current_open.scope?_ne_none hf.2

/-- A variable that is bound is seen through a view of its slot. -/
theorem At.has_view (hm : K.At m₀ frame n m) (l : Location) :
    K.Has m₀ frame n false { m with stack := .value ⟨m.env.load l, some l⟩ :: m.stack } :=
  hm.has ⟨rfl, hm.env.seen_load l⟩

theorem yields_variable {name : Datum} {intent? : Option Intent}
    (hname : K.strict → name.IsName) :
    K.Yields (variableBody h name intent?) (intent? == some .write) := by
  intro m₀ frame n m hm
  unfold variableBody
  simp only [ends_bind]
  refine hm.variableName hname fun s => ?_
  split
  · simp only [ends_bind, ends_pushLocation]
    refine hm.declare fun l m' hm' hl => hm'.has ⟨rfl, ?_⟩
    rintro _ ⟨⟩
    exact hl
  · simp only [ends_bind, ends_view, ends_pushView]
    exact hm.declare fun l m' hm' _ => hm'.has_view l
  · rename_i intent hintent
    have hread : (some intent == some Intent.write) = false := by simpa using hintent
    rw [hread]
    simp only [ends_bind]
    refine hm.lookup fun l? => ?_
    split
    · simp only [ends_bind, ends_view, ends_pushView]
      exact hm.has_view _
    · simp only [ends_bind, ends_pushValue]
      exact hm.remark _ _ _ fun m' hm' _ => hm'.hasValue K.read_undefined

/-! ## Literals and operators -/

theorem fault_toNumber {d : Datum} {f : Fault} (hf : d.toNumber = .error f) : K.fault f := by
  unfold Datum.toNumber at hf
  split at hf
  · obtain rfl := Except.error.inj hf
    exact K.fatal _
  · cases hf
  · simp only [Literal.read] at hf
    split at hf
    · obtain rfl := Except.error.inj hf
      exact K.fatal _
    · split at hf
      · cases hf
      · split at hf
        · cases hf
        · split at hf
          · cases hf
          · obtain rfl := Except.error.inj hf
            exact K.limit (.inl rfl)

theorem At.literalValue {d : Datum} {R : Value → Machine → Prop} (hm : K.At m₀ frame n m)
    (hs : K.strict → ∀ x, d ≠ .scalar (.number x)) (hR : ∀ v, K.value v → R v m) :
    Ends (literalValue h d) m R (K.Stop m₀) := by
  unfold Run.literalValue
  split
  · cases hd : d.toNumber with
    | ok x =>
      refine hR _ ?_
      by_cases h : K.strict
      · exact K.number (Number.inFormat_literal (hs h) hd)
      · exact (K.loose h).1 x
    | error f => exact hm.stop (fault_toNumber hd)
  · exact hR _ (K.string _)
  · exact hR _ (K.bool _)
  · exact hR _ K.null

theorem At.subscriptView {byref quiet : Bool} {base : View} {key : Key} {R : View → Machine → Prop}
    (hm : K.At m₀ frame n m) (hb : K.Seen m.env base)
    (hR : ∀ w m', K.At m₀ frame n m' → K.Seen m'.env w → R w m') :
    Ends (subscriptView h byref quiet base key) m R (K.Stop m₀) := by
  unfold Run.subscriptView
  split
  · split
    · exact hm.fatal _
    · simp only [ends_bind, ends_pure]
      exact hm.noting (notes_charAt _ _ _) _ _ fun c m' hm' _ hc => hR _ m' hm' (seen_fresh hc _)
  · rename_i t ht
    split
    · rename_i v hv
      exact hR _ m hm (hb.child ht hv)
    · simp only [ends_bind, ends_pure]
      exact hm.mention (limited_missing key) _ _ fun m' hm' _ =>
        hR _ m' hm' (seen_fresh (.inr K.null) _)
  · exact hm.fatal _
  · exact hR _ m hm (seen_fresh (.inr K.null) _)

theorem At.keyOf {key : Term} {evalKey : Run Unit} {R : Option Key → Machine → Prop}
    (hm : K.At m₀ frame n m) (hkey : key.isAbsent = false → K.Yields evalKey false)
    (hR : ∀ k? m', K.At m₀ frame n m' → (∀ k, k? = some k → K.key k) → R k? m') :
    Ends (keyOf h key evalKey) m R (K.Stop m₀) := by
  unfold Run.keyOf
  split
  · exact hR none m hm nofun
  · rename_i habsent
    simp only [ends_bind, ends_pure]
    have hpresent := Term.isAbsent_of_ne habsent
    refine hm.pushPending (fun _ => hpresent) fun m hm => ?_
    refine hm.resume (hkey hpresent) fun m hm => ?_
    refine hm.popView fun k m hm _ hk => ?_
    refine hm.noting (notes_toKey hk.read) _ _ fun key m hm _ hkey => ?_
    refine hR _ m hm ?_
    rintro _ ⟨⟩
    exact hkey

theorem yields_readSubscript {quiet : Bool} {base key : Term} {evalBase evalKey : Run Unit}
    (hbase : K.Yields evalBase false) (hkey : K.Yields evalKey false)
    (hs : K.strict → base.isAbsent = false ∧ key.isAbsent = false) :
    K.Yields (readSubscript h quiet base key evalBase evalKey) false := by
  intro m₀ frame n m hm
  simp only [readSubscript, ends_bind, ends_pushView]
  refine hm.pushPending (fun h => (hs h).2) fun m hm => ?_
  refine hm.pushPending (fun h => (hs h).1) fun m hm => hm.resume hbase fun m hm => ?_
  refine hm.popView fun b m hm _ hb => ?_
  refine hm.holding hb (fun m hm => hm.resume hkey fun _ hm => hm) fun b m hm hb => ?_
  refine hm.popView fun k m hm hpop hk => ?_
  refine hm.noting (notes_toKey hk.read) _ _ fun k m hm hnote _ => ?_
  rw [← hpop, ← hnote] at hb
  exact hm.subscriptView hb fun w m hm hw => hm.has ⟨rfl, hw⟩

theorem read_shortCircuit {op : BinaryOp} {a v : Value} (ha : K.read a)
    (hv : Value.shortCircuit op a = some v) : K.read v := by
  have hand : (if a.toBool then none else some (.bool false)) = some v → K.read v := by
    intro hv
    split at hv
    · cases hv
    · obtain rfl := Option.some.inj hv
      exact .inr (K.bool false)
  have hor : (if a.toBool then some (.bool true) else none) = some v → K.read v := by
    intro hv
    split at hv
    · obtain rfl := Option.some.inj hv
      exact .inr (K.bool true)
    · cases hv
  unfold Value.shortCircuit at hv
  split at hv
  · exact hand hv
  · exact hand hv
  · exact hor hv
  · exact hor hv
  · split at hv
    · cases hv
    · obtain rfl := Option.some.inj hv
      exact ha
  · cases hv

theorem yields_binary {operator : Datum} {left right : Term} {evalLeft : Option Intent → Run Unit}
    {evalRight : Run Unit} (hleft : K.Yields (evalLeft (some .read)) false)
    (hleft' : K.Yields (evalLeft (some .isset)) false) (hright : K.Yields evalRight false)
    (hs : K.strict → left.isAbsent = false ∧ right.isAbsent = false ∧
      ∃ op, Operator.ofDatum BinaryOp.ofSymbol? operator = .known op) :
    K.Yields (binaryBody h operator left right evalLeft evalRight) false := by
  intro m₀ frame n m hm
  simp only [binaryBody, ends_bind]
  refine hm.pushPending (fun h => (hs h).2.1) fun m hm => ?_
  refine hm.pushPending (fun h => (hs h).1) fun m hm => ?_
  refine hm.resume (?_ : K.Yields _ false) fun m hm => ?_
  · split
    · exact hleft'
    · exact hleft
  refine hm.popView fun l m hm _ hl => ?_
  split
  · refine hm.crash (fun h => ?_) _
    obtain ⟨op, hop⟩ := (hs h).2.2
    simp_all
  · simp only [ends_bind]
    refine hm.resume hright fun m hm => hm.popView fun _ m hm _ _ => hm.breach (fun h => ?_) _
    obtain ⟨op, hop⟩ := (hs h).2.2
    simp_all
  · rename_i op _
    split
    · rename_i v hv
      simp only [ends_bind, ends_pushView]
      refine hm.pop fun m hm henv => hm.has ?_
      rw [← henv] at hl
      split
      · exact ⟨rfl, hl⟩
      · exact ⟨rfl, seen_fresh (read_shortCircuit hl.read hv) _⟩
    · simp only [ends_bind]
      refine hm.holding hl (fun m hm => hm.resume hright fun _ hm => hm) fun l m hm hl => ?_
      refine hm.popView fun r m hm _ hr => ?_
      split
      · exact hm.has ⟨rfl, hr.defined⟩
      · simp only [ends_bind, ends_pushValue]
        refine hm.noting (notes_applyBinary op hl.read hr.read) _ _ fun v m hm _ hv => ?_
        exact hm.hasValue (.inr hv)

theorem yields_unary {operator : Datum} {operand : Term} {evalOperand : Run Unit}
    (hoperand : K.Yields evalOperand false)
    (hs : K.strict → operand.isAbsent = false ∧
      ∃ s op, operator = .scalar (.string s) ∧ UnaryOp.ofSymbol? s = some op) :
    K.Yields (unaryBody h operator operand evalOperand) false := by
  intro m₀ frame n m hm
  simp only [unaryBody, ends_bind]
  refine hm.pushPending (fun h => (hs h).1) fun m hm => hm.resume hoperand fun m hm => ?_
  refine hm.popView fun v m hm _ hv => ?_
  split
  · split
    · simp only [ends_bind, ends_pushValue]
      exact hm.noting (notes_applyUnary _ hv.read) _ _ fun w m hm _ hw => hm.hasValue (.inr hw)
    · refine hm.breach (fun h => ?_) _
      obtain ⟨-, s, op, heq, hop⟩ := hs h
      simp_all
  · refine hm.breach (fun h => ?_) _
    obtain ⟨-, s, op, heq, hop⟩ := hs h
    simp_all

/-! ## Assignments -/

/-- The computation leaves the stack alone and returns a result with `P`. -/
def Gives {α : Type} (K : Contract) (act : Run α) (P : α → Environment → Prop) : Prop :=
  ∀ m₀ frame n m, K.At m₀ frame n m →
    Ends act m (fun a m' => K.At m₀ frame n m' ∧ P a m'.env) (K.Stop m₀)

/-- A location that evaluation resolved, or none. -/
def Place? (K : Contract) (l? : Option Location) (e : Environment) : Prop :=
  ∀ l, l? = some l → K.Place e l

theorem Has.ends_location {R : Option Location → Machine → Prop} (hm : K.Has m₀ frame n place m)
    (hs : K.strict → place = true)
    (hR : ∀ l? m', K.At m₀ frame n m' → (∀ l, l? = some l → K.Place m'.env l) → R l? m') :
    Ends Run.popLocation m R (K.Stop m₀) := by
  cases place with
  | true => exact hm.popLocation hR
  | false => exact hm.popLocation_value fun h => by simpa using hs h

theorem yields_assign {target value : Term} {evalTarget evalValue : Run Unit}
    (htarget : K.Yields evalTarget place) (hvalue : K.Yields evalValue false)
    (hs : K.strict → place = true ∧ target.isAbsent = false ∧ value.isAbsent = false) :
    K.Yields (assignBody h target value evalTarget evalValue) false := by
  intro m₀ frame n m hm
  simp only [assignBody, ends_bind, ends_pushView]
  refine hm.pushPending (fun h => (hs h).2.1) fun m hm => ?_
  refine hm.pushPending (fun h => (hs h).2.2) fun m hm => hm.resume hvalue fun m hm => ?_
  refine hm.popView fun v m hm _ hv => hm.resume htarget fun m hm => ?_
  refine hm.ends_location (fun h => (hs h).1) fun l? m hm hl => ?_
  exact hm.writeTo hl (value_defined hv.read) fun w m hm hw => hm.has ⟨rfl, hw⟩

theorem yields_reference {target source : Term} {evalSource : Run Unit}
    (hsource : (∀ h e, source ≠ .statement h e) → K.Yields evalSource true)
    (hs : K.strict → ∀ h name, target = .variable h name → name.IsName) :
    K.Yields (referenceBody target source evalSource) false := by
  intro m₀ frame n m hm
  unfold referenceBody
  split
  · rename_i head name
    split
    case h_3 => exact hm.fatal _
    -- Only variables and subscripts can be referred to, and both yield places.
    all_goals
      have hyields := hsource (by simp)
      simp only [ends_bind]
      refine hm.pushPending (fun _ => rfl) fun m hm => hm.resume hyields fun m hm => ?_
      refine hm.popLocation fun l? m hm hl => ?_
      split
      · exact hm.fatal _
      · rename_i l
        split
        · exact hm.fatal _
        · split
          · exact hm.fatal _
          · rename_i hchar hpath
            simp only [ends_bind, ends_view, ends_pushView]
            refine hm.variableName (fun h => hs h _ _ rfl) fun s => ?_
            refine hm.bind (hl l rfl) (by simpa using hpath) (by simpa using hchar) fun m hm => ?_
            exact hm.has_view l
  · exact hm.fatal _

theorem gives_peekRoot {t : Term} (hs : K.strict → t.RootNamed) :
    K.Gives (peekRoot t) fun v e => K.Seen e v := by
  intro m₀ frame n m hm
  induction t using peekRoot.induct with
  | case1 h base key ih => exact ih hs
  | case2 h name =>
    simp only [peekRoot, ends_bind]
    refine hm.variableName hs fun s => hm.lookup fun l? => ?_
    split
    · exact ⟨hm, hm.env.seen_load _⟩
    · exact ⟨hm, seen_fresh K.read_undefined _⟩
  | case3 t hsub hvar =>
    rw [peekRoot]
    · exact hm.fatal _
    · exact hsub
    · exact hvar

theorem gives_standing {op : BinaryOp} {target : Term} {levels : List Level}
    (hs : K.strict → target.RootNamed) :
    K.Gives (standing op target levels) fun v? e => ∀ v, v? = some v → K.Seen e v := by
  intro m₀ frame n m hm
  unfold standing
  split
  · simp only [ends_bind, ends_pure]
    refine (gives_peekRoot hs m₀ frame n m hm).mono ?_ fun _ _ hf => hf
    rintro root m' ⟨hm', hroot⟩
    refine hm'.peekAll hroot fun w m'' hm'' hw => ⟨hm'', ?_⟩
    split
    · simp
    · rintro _ ⟨⟩
      exact hw
  · exact ⟨hm, by simp⟩

theorem At.loadOrNull {l? : Option Location} {R : Value → Machine → Prop}
    (hm : K.At m₀ frame n m) (hR : ∀ v, K.read v → R v m) :
    Ends (loadOrNull l?) m R (K.Stop m₀) := by
  cases l? with
  | none => exact hR _ (.inr K.null)
  | some l => exact hR _ (hm.env.cells.read_load l)

theorem yields_compound {op : BinaryOp} {target value : Term} {evalKeys : Run (List Level)}
    {evalRoot : Run (Option Location)} {evalValue : Run Unit}
    (hkeys : K.Gives evalKeys fun levels _ => K.Levels levels) (hroot : K.Gives evalRoot K.Place?)
    (hvalue : K.Yields evalValue false)
    (hs : K.strict → target.RootNamed ∧ value.isAbsent = false) :
    K.Yields (compoundBody h op target value evalKeys evalRoot evalValue) false := by
  intro m₀ frame n m hm
  simp only [compoundBody, ends_bind]
  refine (hkeys m₀ frame n m hm).mono ?_ fun _ _ hf => hf
  rintro levels m ⟨hm, hlevels⟩
  refine (gives_standing (fun h => (hs h).1) m₀ frame n m hm).mono ?_ fun _ _ hf => hf
  rintro v? m ⟨hm, hv⟩
  split
  · exact hm.has ⟨rfl, hv _ rfl⟩
  · simp only [ends_bind, ends_pushView]
    refine hm.pushPending (fun h => (hs h).2) fun m hm => hm.resume hvalue fun m hm => ?_
    have hresolve : ∀ m, K.At m₀ frame (n + 1) m → Ends (do
        let root? ← evalRoot
        pushLocation (← Run.descendAll levels root?)) m
          (fun _ => K.Has m₀ frame (n + 1) true) (K.Stop m₀) := by
      intro m hm
      simp only [ends_bind, ends_pushLocation]
      refine (hroot m₀ frame _ m hm).mono ?_ fun _ _ hf => hf
      rintro root? m ⟨hm, hroot⟩
      exact hm.descendAll hroot hlevels fun l? m hm hl => hm.has ⟨rfl, hl⟩
    refine hm.popView fun v m hm _ hv => hm.holding hv hresolve fun v m hm hv => ?_
    refine hm.popLocation fun l? m hm hl => hm.loadOrNull fun old hold => ?_
    refine hm.noting (notes_applyBinary op hold hv.read) _ _ fun w m' hm' henv hw => ?_
    refine hm'.writeTo (by rwa [henv]) (value_defined (.inr hw)) fun w m hm hw => ?_
    exact hm.has ⟨rfl, hw⟩

/-! ## Statements -/

theorem yields_statement {e : Term} {evalExpression : Option Intent → Run Unit}
    (hread : e.isAbsent = false → K.Yields (evalExpression (some .read)) false)
    (hnone : (∀ h base key, e ≠ .subscript h base key) → K.Yields (evalExpression none) false)
    (hs : K.strict → e ≠ .absent ∧ e ≠ .foreign) :
    K.Yields (statementBody e evalExpression) false := by
  intro m₀ frame n m hm
  unfold statementBody
  split
  · exact hm.breach (fun h => (hs h).1 rfl) _
  · exact hm.breach (fun h => (hs h).2 rfl) _
  · exact hm.hasValue (.inr K.null)
  · split
    · exact ends_within_stop _ (hread rfl m₀ frame n m hm)
    · exact hm.hasValue (.inr K.null)
  · exact hnone nofun m₀ frame n m hm
  · exact hnone nofun m₀ frame n m hm
  · rename_i habsent _ _ _ _ _
    exact ends_within_stop _ (hread (Term.isAbsent_of_ne habsent) m₀ frame n m hm)

theorem gives_globalNames {targets : List Term} (hs : K.strict → ∀ t ∈ targets, t.RootNamed) :
    K.Gives (globalNames targets) fun _ _ => True := by
  intro m₀ frame n m hm
  induction targets generalizing m with
  | nil => exact ⟨hm, trivial⟩
  | cons t rest ih =>
    have ih' := ih fun h t ht => hs h t (List.mem_cons_of_mem _ ht)
    match t with
    | .variable head name =>
      simp only [globalNames, ends_bind]
      refine hm.variableName (fun h => hs h _ List.mem_cons_self) fun s => ?_
      exact hm.bindGlobal fun _ m hm => ih' m hm
    | .absent | .foreign | .program .. | .statement .. | .echo .. | .global .. | .unset ..
    | .literal .. | .array .. | .entry .. | .subscript .. | .unary .. | .binary .. | .assign ..
    | .other _ => exact hm.fatal _

theorem gives_unsetNames {targets : List Term} (hs : K.strict → ∀ t ∈ targets, t.RootNamed) :
    K.Gives (unsetNames targets) fun _ _ => True := by
  intro m₀ frame n m hm
  induction targets generalizing m with
  | nil => exact ⟨hm, trivial⟩
  | cons t rest ih =>
    have ih' := ih fun h t ht => hs h t (List.mem_cons_of_mem _ ht)
    match t with
    | .variable head name =>
      simp only [unsetNames, ends_bind]
      refine hm.variableName (fun h => hs h _ List.mem_cons_self) fun s => ?_
      exact hm.unset fun m hm => ih' m hm
    | .absent | .foreign | .program .. | .statement .. | .echo .. | .global .. | .unset ..
    | .literal .. | .array .. | .entry .. | .subscript .. | .unary .. | .binary .. | .assign ..
    | .other _ => exact hm.fatal _

/-- What can only be read stops if it is to be written. -/
theorem yields_writable {act : Run Unit} {intent? : Option Intent} (hact : K.Yields act false) :
    K.Yields (do writable intent?; act) (intent? == some .write) := by
  intro m₀ frame n m hm
  simp only [ends_bind, writable]
  split
  · exact hm.fatal _
  · rename_i hread
    rw [show (intent? == some Intent.write) = false by simpa using hread]
    exact hact m₀ frame n m hm

theorem At.listed {iterable : Bool} {R : Unit → Machine → Prop} (hm : K.At m₀ frame n m)
    (hs : K.strict → iterable = true) (hR : R () m) : Ends (listed iterable) m R (K.Stop m₀) := by
  unfold Run.listed
  split
  · exact hR
  · rename_i hno
    exact hm.crash (fun h => hno (hs h)) _

end Contract

end PhpInterpreter
