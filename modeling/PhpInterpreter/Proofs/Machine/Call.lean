import PhpInterpreter.Proofs.Machine.Site

/-!
The calls of an evaluation. Evaluating a node evaluates other nodes on the way, each on the machine
that is there by then, and resolves targets level by level. If a call fails, the evaluation fails
with the same error; and if it fails without a failing call, its error has no place yet.
-/

namespace PhpInterpreter

namespace Run

variable {m : Machine} {h : Head} {t target value base key left right operand : Term}
  {intent : Intent} {intent? : Option Intent} {operator : Datum} {levels : List Level} {s : Site}
  {e : RunError}

/-! ## Targets -/

/-- The keys of a target are evaluated from its root outwards. -/
inductive KeyCall : Term → Machine → Site → Prop
  | base {h : Head} {base key : Term} {m : Machine} {s : Site} (hs : KeyCall base m s) :
    KeyCall (.subscript h base key) m s
  | key {h : Head} {base key : Term} {m m₁ : Machine} {levels : List Level}
    (hlevels : base.evalKeys.outcome m = (.ok levels, m₁)) (hkey : key.isAbsent = false) :
    KeyCall (.subscript h base key) m (.node key (some .read) m₁)

theorem KeyCall.stopsWith (h : KeyCall t m s) (hs : s.Fails e) : StopsWith t.evalKeys m e := by
  induction h with
  | base _ ih =>
    rw [Term.evalKeys, StopsWith, ends_bind]
    exact (ih hs).ends
  | key hlevels hkey =>
    rw [Term.evalKeys, StopsWith, ends_bind]
    refine ends_of_ok hlevels ?_
    rw [keyOf_eq hkey, ends_bind, ends_bind]
    exact (stopsWith_node hs).ends

theorem traced_keys (t : Term) (m : Machine) :
    Ends t.evalKeys m (fun _ _ => True) (Traced (KeyCall t m)) := by
  match t with
  | .subscript h base key =>
    rw [Term.evalKeys, ends_bind]
    refine traced_then (traced_keys base m) (fun _ => .base) fun levels m₁ hlevels => ?_
    rw [ends_bind]
    cases hkey : key.isAbsent with
    | true =>
      obtain rfl := Term.eq_absent hkey
      exact trivial
    | false =>
      rw [keyOf_eq hkey, ends_bind]
      refine (traced_node (.key hlevels hkey)).mono (fun _ m₂ _ => ?_) fun _ _ hf => hf
      have hrest : Unplaced (do
          let k ← popView
          return some (← noting h.place.line false k.value.toKey)) :=
        unplaced_popView.bind fun k => (unplaced_noting (.toKey _) _ _).bind fun _ =>
          unplaced_pure _
      exact (hrest.traced _ m₂).mono (fun _ _ _ => trivial) fun _ _ hf => hf
  | .absent | .foreign | .program .. | .statement .. | .echo .. | .global .. | .unset ..
  | .literal .. | .variable .. | .array .. | .entry .. | .unary .. | .binary .. | .assign ..
  | .other _ => exact trivial

/-- One level down, with the place of the level. -/
def descendTo (l? : Option Location) (level : Level) : Run (Option Location) :=
  located level.place (descend level l?)

theorem descendAll_eq_foldlM (levels : List Level) (l? : Option Location) :
    descendAll levels l? = levels.foldlM descendTo l? := by
  induction levels generalizing l? with
  | nil => rfl
  | cons level rest ih => simp only [descendAll, List.foldlM_cons, ih, descendTo]

/-- A target is resolved from its root, and level by level from there. -/
inductive ResolveCall (root : Term) (levels : List Level) (m : Machine) : Site → Prop
  | root (hroot : root.head?.isSome) : ResolveCall root levels m (.node root (some .write) m)
  | level {root? : Option Location} {m₁ : Machine} {s : Site}
    (hroot : root.evalRoot.outcome m = (.ok root?, m₁))
    (hs : InTurn descendTo (fun l? level m s => s = .level level l? m) levels root? m₁ s) :
    ResolveCall root levels m s

/-- The root of a target is a node that is evaluated to be written. -/
theorem evalRoot_eq (hroot : t.head?.isSome)
    (hsubscript : ∀ h base key, t ≠ .subscript h base key) :
    t.evalRoot = within t (t.eval (some .write)) >>= fun _ => popLocation := by
  cases t with
  | absent | foreign => cases hroot
  | subscript h base key => exact absurd rfl (hsubscript h base key)
  | _ =>
    rw [Term.evalRoot.eq_def, Term.eval.eq_def]
    rfl

theorem ResolveCall.stopsWith {root : Term}
    (hsubscript : ∀ h base key, root ≠ .subscript h base key) (h : ResolveCall root levels m s)
    (hs : s.Fails e) : StopsWith (resolve root levels) m e := by
  rw [StopsWith, resolve, ends_bind]
  cases h with
  | root hroot =>
    rw [evalRoot_eq hroot hsubscript, ends_bind]
    exact (stopsWith_node hs).ends
  | level hroot hlevel =>
    refine ends_of_ok hroot ?_
    rw [descendAll_eq_foldlM]
    refine hlevel.stopsWith ?_
    rintro l? level m rfl
    exact stopsWith_iff.2 hs

theorem traced_resolve (t : Term) (levels : List Level) (m : Machine) :
    Ends (resolve t.root levels) m (fun _ _ => True) (Traced (ResolveCall t.root levels m)) := by
  have hroot : Ends t.root.evalRoot m (fun _ _ => True)
      (Traced (ResolveCall t.root levels m)) := by
    cases hhead : t.root.head? with
    | none =>
      -- Nothing to evaluate is a breach, and foreign data a crash.
      cases hterm : t.root with
      | absent => exact .inl rfl
      | foreign => exact .inl trivial
      | _ =>
        rw [hterm] at hhead
        cases hhead
    | some h =>
      have hsome : t.root.head?.isSome := by rw [hhead]; rfl
      rw [evalRoot_eq hsome t.root_ne_subscript, ends_bind]
      refine (traced_node (.root hsome)).mono (fun _ m₁ _ => ?_) fun _ _ hf => hf
      exact unplaced_popLocation.traced _ m₁
  rw [resolve, ends_bind]
  refine traced_then hroot (fun _ hs => hs) fun root? m₁ hrun => ?_
  rw [descendAll_eq_foldlM]
  refine traced_mono (traced_inTurn fun l? level _ m₂ => ?_) fun _ => .level hrun
  refine (ends_run _ m₂).mono (fun _ _ _ => trivial) fun f m₃ hdown => ?_
  cases f with
  | crash c => exact .inl trivial
  | error e => exact .inr ⟨e, _, rfl, rfl, congrArg Prod.fst hdown⟩

/-! ## Operators and subscripts -/

/-- A subscript that is read: its base, and then its key while the base is held. -/
inductive ReadCall (base key : Term) (intent : Intent) (m : Machine) : Site → Prop
  | base (hbase : base.isAbsent = false) (hkey : key.isAbsent = false) :
    ReadCall base key intent m (.node base (some intent) (m.facing key (some .read)))
  | key {b : View} {m₁ : Machine} (hbase : base.isAbsent = false) (hkey : key.isAbsent = false)
    (hb : Obtains base (some intent) (m.facing key (some .read)) b (m₁.facing key (some .read))) :
    ReadCall base key intent m (.node key (some .read) { m₁ with held := b :: m₁.held })

theorem quiet_intent (hintent : intent ≠ .write) :
    (if (intent == .isset) = true then Intent.isset else .read) = intent := by
  cases intent with
  | write => exact absurd rfl hintent
  | _ => rfl

theorem ReadCall.stopsWith (hintent : intent ≠ .write) (hcall : ReadCall base key intent m s)
    (hs : s.Fails e) :
    StopsWith (readSubscript h (intent == .isset) base key (base.eval (some intent))
      (key.eval (some .read))) m e := by
  simp only [readSubscript, StopsWith, ends_bind, ends_pushPending, quiet_intent hintent]
  cases hcall with
  | base hbase hkey =>
    simp only [hbase, hkey, Bool.false_eq_true, if_false]
    exact (stopsWith_resume hs).ends
  | key hbase hkey hb =>
    simp only [hbase, hkey, Bool.false_eq_true, if_false]
    refine ends_of_obtains hb ?_
    exact (stopsWith_held hs).ends

theorem traced_readSubscript (hintent : intent ≠ .write) :
    Ends (readSubscript h (intent == .isset) base key (base.eval (some intent))
      (key.eval (some .read))) m (fun _ _ => True) (Traced (ReadCall base key intent m)) := by
  have hread : some intent ≠ some .write := fun h => hintent (Option.some.inj h)
  simp only [readSubscript, ends_bind, ends_pushPending, quiet_intent hintent]
  split
  · exact .inl rfl
  split
  · exact .inl rfl
  rename_i hkey hbase
  rw [Bool.not_eq_true] at hkey hbase
  refine traced_obtains_facing hread (.base hbase hkey) fun b m₁ hb => ?_
  refine traced_held (fun b m' => ?_) (.key hbase hkey hb)
  have hrest : Unplaced (do
      let k ← popView
      let k ← noting h.place.line (intent == .isset) k.value.toKey
      pushView (← subscriptView h (h.byref || base.byref) (intent == .isset) b k)) := by
    refine unplaced_popView.bind fun k => (unplaced_noting (.toKey _) _ _).bind fun k => ?_
    exact (unplaced_subscriptView _ _ _ _).bind fun _ => unplaced_push _
  simpa only [ends_bind] using hrest.traced _ m'

/-- The right operand is evaluated while the left one is held, unless that decides the result. -/
inductive BinaryCall (op : Operator BinaryOp) (left right : Term) (m : Machine) : Site → Prop
  | left (hleft : left.isAbsent = false) (hright : right.isAbsent = false) :
    BinaryCall op left right m (.node left (leftIntent op) (m.facing right (some .read)))
  | right {known : BinaryOp} {l : View} {m₁ : Machine} (hleft : left.isAbsent = false)
    (hright : right.isAbsent = false) (hop : op = .known known)
    (hl : Obtains left (leftIntent op) (m.facing right (some .read)) l
      (m₁.facing right (some .read)))
    (hboth : Value.shortCircuit known l.value = none) :
    BinaryCall op left right m (.node right (some .read) { m₁ with held := l :: m₁.held })
  | unknown {text : String} {l : View} {m₁ : Machine} (hleft : left.isAbsent = false)
    (hright : right.isAbsent = false) (hop : op = .unknown text)
    (hl : Obtains left (leftIntent op) (m.facing right (some .read)) l
      (m₁.facing right (some .read))) :
    BinaryCall op left right m (.node right (some .read) m₁)

theorem leftIntent_ne_write (op : Operator BinaryOp) : leftIntent op ≠ some .write := by
  unfold leftIntent
  split <;> decide

theorem BinaryCall.stopsWith
    (hcall : BinaryCall (Operator.ofDatum BinaryOp.ofSymbol? operator) left right m s)
    (hs : s.Fails e) :
    StopsWith (binaryBody h operator left right (fun i => left.eval i) (right.eval (some .read)))
      m e := by
  simp only [binaryBody, StopsWith, ends_bind, ends_pushPending]
  cases hcall with
  | left hleft hright =>
    simp only [hleft, hright, Bool.false_eq_true, if_false]
    exact (stopsWith_resume hs).ends
  | right hleft hright hop hl hboth =>
    simp only [hleft, hright, Bool.false_eq_true, if_false]
    refine ends_of_obtains hl ?_
    simp only [hop, hboth, ends_bind]
    exact (stopsWith_held hs).ends
  | unknown hleft hright hop hl =>
    simp only [hleft, hright, Bool.false_eq_true, if_false]
    refine ends_of_obtains hl ?_
    simp only [hop, ends_bind]
    exact (stopsWith_resume hs).ends

theorem traced_binaryBody :
    Ends (binaryBody h operator left right (fun i => left.eval i) (right.eval (some .read))) m
      (fun _ _ => True)
      (Traced (BinaryCall (Operator.ofDatum BinaryOp.ofSymbol? operator) left right m)) := by
  simp only [binaryBody, ends_bind, ends_pushPending]
  split
  · exact .inl rfl
  split
  · exact .inl rfl
  rename_i hright hleft
  rw [Bool.not_eq_true] at hright hleft
  refine traced_obtains_facing (leftIntent_ne_write _) (.left hleft hright) fun l m₁ hl => ?_
  split
  · exact .inl trivial
  · rename_i text hop
    rw [ends_bind]
    refine (traced_resume (.unknown hleft hright hop hl)).mono (fun _ m₂ _ => ?_) fun _ _ hf => hf
    exact (unplaced_popView.bind fun _ => unplaced_breach _).traced _ m₂
  · rename_i op hop
    split
    · exact (unplaced_pop.bind fun _ => unplaced_push _).traced _ _
    · rename_i hboth
      rw [ends_bind]
      refine traced_held (fun l m₂ => ?_) (.right hleft hright hop hl hboth)
      refine Unplaced.traced (unplaced_popView.bind fun r => ?_) _ m₂
      split
      · exact unplaced_push _
      · exact (unplaced_noting (.applyBinary _ _ _) _ _).bind fun _ => unplaced_push _

/-- A node whose evaluation comes first. -/
inductive FirstCall (t : Term) (intent : Intent) (m : Machine) : Site → Prop
  | first (ht : t.isAbsent = false) : FirstCall t intent m (.node t (some intent) m)

theorem FirstCall.stopsWith {α : Type} {f : Unit → Run α} (hcall : FirstCall t intent m s)
    (hs : s.Fails e) :
    StopsWith (do
      pushPending t (some intent)
      resume (within t (t.eval (some intent))) >>= f) m e := by
  cases hcall with
  | first ht =>
    simp only [StopsWith, ends_bind, ends_pushPending, ht, Bool.false_eq_true, if_false]
    exact (stopsWith_resume hs).ends

theorem traced_first {α : Type} {f : Unit → Run α} (hf : ∀ u, Unplaced (f u)) :
    Ends (do
      pushPending t (some intent)
      resume (within t (t.eval (some intent))) >>= f) m (fun _ _ => True)
      (Traced (FirstCall t intent m)) := by
  simp only [ends_bind, ends_pushPending]
  split
  · exact .inl rfl
  rename_i ht
  rw [Bool.not_eq_true] at ht
  refine (traced_resume (.first ht)).mono (fun u m₁ _ => ?_) fun _ _ hf => hf
  exact (hf u).traced _ m₁

theorem traced_unaryBody :
    Ends (unaryBody h operator operand (operand.eval (some .read))) m (fun _ _ => True)
      (Traced (FirstCall operand .read m)) := by
  refine traced_first fun _ => unplaced_popView.bind fun v => ?_
  split
  · split
    · exact (unplaced_noting (.applyUnary _ _) _ _).bind fun _ => unplaced_push _
    · exact unplaced_breach _
  · exact unplaced_breach _

/-! ## Assignments -/

/-- A plain assignment: the value, and then the target. -/
inductive AssignCall (target value : Term) (m : Machine) : Site → Prop
  | value (htarget : target.isAbsent = false) (hvalue : value.isAbsent = false) :
    AssignCall target value m (.node value (some .read) (m.facing target (some .write)))
  | target {v : View} {m₁ : Machine} (htarget : target.isAbsent = false)
    (hvalue : value.isAbsent = false)
    (hv : Obtains value (some .read) (m.facing target (some .write)) v
      (m₁.facing target (some .write))) :
    AssignCall target value m (.node target (some .write) m₁)

theorem AssignCall.stopsWith (hcall : AssignCall target value m s) (hs : s.Fails e) :
    StopsWith (assignBody h target value (target.eval (some .write)) (value.eval (some .read)))
      m e := by
  simp only [assignBody, StopsWith, ends_bind, ends_pushPending]
  cases hcall with
  | value htarget hvalue =>
    simp only [htarget, hvalue, Bool.false_eq_true, if_false]
    exact (stopsWith_resume hs).ends
  | target htarget hvalue hv =>
    simp only [htarget, hvalue, Bool.false_eq_true, if_false]
    refine ends_of_obtains hv ?_
    exact (stopsWith_resume hs).ends

theorem traced_assignBody :
    Ends (assignBody h target value (target.eval (some .write)) (value.eval (some .read))) m
      (fun _ _ => True) (Traced (AssignCall target value m)) := by
  simp only [assignBody, ends_bind, ends_pushPending]
  split
  · exact .inl rfl
  split
  · exact .inl rfl
  rename_i htarget hvalue
  rw [Bool.not_eq_true] at htarget hvalue
  refine traced_obtains_facing (by decide) (.value htarget hvalue) fun v m₁ hv => ?_
  refine (traced_resume (.target htarget hvalue hv)).mono (fun _ m₂ _ => ?_) fun _ _ hf => hf
  have hrest : Unplaced (do
      let l? ← popLocation
      pushView (← writeTo h.place.line l? v.value.defined)) :=
    unplaced_popLocation.bind fun l? => (unplaced_writeTo _ _ _).bind fun _ => unplaced_push _
  simpa only [ends_bind] using hrest.traced _ m₂

/-- A name is bound to a variable, or to a subscript, which is not possible, as it turns out. -/
def isPlace : Term → Bool
  | .variable .. | .subscript .. => true
  | _ => false

theorem referenceBody_stopsWith {hd : Head} {name : Datum} {source : Term}
    (hsource : isPlace source = true) (hcall : FirstCall source .write m s) (hs : s.Fails e) :
    StopsWith (referenceBody (.variable hd name) source (source.eval (some .write))) m e := by
  cases source with
  | «variable» | subscript => exact hcall.stopsWith hs
  | _ => cases hsource

theorem traced_referenceBody {source : Term} :
    Ends (referenceBody target source (source.eval (some .write))) m (fun _ _ => True)
      (Traced fun s => (∃ hd name, target = .variable hd name) ∧ isPlace source = true ∧
        FirstCall source .write m s) := by
  cases target with
  | «variable» hd name =>
    have hbind := unplaced_popLocation.bind (unplaced_attach name)
    cases source with
    | «variable» | subscript =>
      exact traced_mono (traced_first fun _ => hbind) fun s hs => ⟨⟨hd, name, rfl⟩, rfl, hs⟩
    | _ => exact .inl rfl
  | _ => exact .inl rfl

/-- An assignment with an operator: the keys of its target, its value if it fires, and its target
while the value is held. -/
inductive CompoundCall (op : BinaryOp) (target value : Term) (m : Machine) : Site → Prop
  | keys {s : Site} (hs : KeyCall target m s) : CompoundCall op target value m s
  | value {levels : List Level} {m₁ m₂ : Machine} (hvalue : value.isAbsent = false)
    (hkeys : target.evalKeys.outcome m = (.ok levels, m₁))
    (hfires : (standing op target levels).outcome m₁ = (.ok none, m₂)) :
    CompoundCall op target value m (.node value (some .read) m₂)
  | target {levels : List Level} {m₁ m₂ m₃ : Machine} {v : View} {s : Site}
    (hvalue : value.isAbsent = false)
    (hkeys : target.evalKeys.outcome m = (.ok levels, m₁))
    (hfires : (standing op target levels).outcome m₁ = (.ok none, m₂))
    (hv : Obtains value (some .read) m₂ v m₃)
    (hs : ResolveCall target.root levels { m₃ with held := v :: m₃.held } s) :
    CompoundCall op target value m s

/-- The target is resolved while the value is held. -/
theorem resolve_root (target : Term) (levels : List Level) :
    (do
      let root? ← target.evalRoot
      pushLocation (← descendAll levels root?)) =
      resolve target.root levels >>= pushLocation := by
  rw [resolve, target.evalRoot_root, bind_assoc]

theorem CompoundCall.stopsWith {op : BinaryOp} (hcall : CompoundCall op target value m s)
    (hs : s.Fails e) :
    StopsWith (compoundBody h op target value target.evalKeys target.evalRoot
      (value.eval (some .read))) m e := by
  rw [compoundBody, StopsWith, ends_bind]
  cases hcall with
  | keys hkey => exact (hkey.stopsWith hs).ends
  | value hvalue hkeys hfires =>
    refine ends_of_ok hkeys ?_
    rw [ends_bind]
    refine ends_of_ok hfires ?_
    simp only [ends_bind, ends_pushPending, hvalue, Bool.false_eq_true, if_false]
    exact (stopsWith_resume hs).ends
  | target hvalue hkeys hfires hv hresolve =>
    refine ends_of_ok hkeys ?_
    rw [ends_bind]
    refine ends_of_ok hfires ?_
    simp only [ends_bind, ends_pushPending, hvalue, Bool.false_eq_true, if_false]
    refine ends_of_obtains hv ?_
    rw [resolve_root]
    refine (stopsWith_holding ?_).ends
    rw [StopsWith, ends_bind]
    exact (hresolve.stopsWith target.root_ne_subscript hs).ends

theorem traced_compoundBody {op : BinaryOp} :
    Ends (compoundBody h op target value target.evalKeys target.evalRoot (value.eval (some .read)))
      m (fun _ _ => True) (Traced (CompoundCall op target value m)) := by
  rw [compoundBody, ends_bind]
  refine traced_then (traced_keys target m) (fun _ => .keys) fun levels m₁ hkeys => ?_
  rw [ends_bind]
  refine (unplaced_standing op target levels).andThen fun standing? m₂ hstanding => ?_
  cases standing? with
  | some v => exact trivial
  | none =>
    simp only [ends_bind, ends_pushPending]
    split
    · exact .inl rfl
    rename_i hvalue
    rw [Bool.not_eq_true] at hvalue
    refine traced_obtains (by decide) (.value hvalue hkeys hstanding) fun v m₃ _ hv _ => ?_
    rw [resolve_root]
    refine traced_holding (fun v m' => ?_) ?_
    · have hrest : Unplaced (do
          let l? ← popLocation
          let result ← noting h.place.line false (Value.applyBinary op (← loadOrNull l?) v.value)
          pushView (← writeTo h.place.line l? result.defined)) := by
        refine unplaced_popLocation.bind fun l? => (unplaced_loadOrNull l?).bind fun old => ?_
        refine (unplaced_noting (.applyBinary _ _ _) _ _).bind fun _ => ?_
        exact (unplaced_writeTo _ _ _).bind fun _ => unplaced_push _
      simpa only [ends_bind] using hrest.traced _ m'
    · rw [ends_bind]
      exact traced_then (traced_resolve target levels _)
        (fun _ => .target hvalue hkeys hstanding hv) fun _ _ _ => trivial

/-! ## Lists of parts -/

/-- An item of an array literal: the key of an entry, and then its value. -/
inductive ItemCall : Term → Machine → Site → Prop
  | value {h : Head} {value : Term} {m : Machine} {s : Site} (hbyref : h.byref = false)
    (hs : FirstCall value .read m s) : ItemCall (.entry h .absent value) m s
  | key {h : Head} {key value : Term} {m : Machine} (hbyref : h.byref = false)
    (hkey : key.isAbsent = false) (hvalue : value.isAbsent = false) :
    ItemCall (.entry h key value) m (.node key (some .read) (m.facing value (some .read)))
  | keyed {h : Head} {key value : Term} {m m₁ : Machine} {k : View} {x : Key}
    {remarks : List Remark} (hbyref : h.byref = false) (hkey : key.isAbsent = false)
    (hvalue : value.isAbsent = false)
    (hk : Obtains key (some .read) (m.facing value (some .read)) k (m₁.facing value (some .read)))
    (hx : k.value.toKey.outcome = (.ok x, remarks)) :
    ItemCall (.entry h key value) m
      (.node value (some .read) (logged h.place.line false remarks m₁))
  | plain {item : Term} {m : Machine} {s : Site} (hitem : item.head?.isSome)
    (hentry : ∀ h key value, item ≠ .entry h key value) (hbyref : item.byref = false)
    (hs : FirstCall item .read m s) : ItemCall item m s

theorem evalItems_cons (item : Term) (rest : List Term) (u : Table Value) :
    Term.evalItems (item :: rest) u = Term.evalItems [item] u >>= Term.evalItems rest := by
  cases item with
  | entry h key value =>
    rw [Term.evalItems.eq_def, Term.evalItems.eq_def [Term.entry h key value]]
    dsimp only
    split
    · rfl
    · cases key <;> simp only [Term.evalItems, bind_assoc, pure_bind]
  | absent => rfl
  | foreign => rfl
  | _ =>
    rw [Term.evalItems.eq_def, Term.evalItems.eq_def [_]]
    dsimp only
    split
    · rfl
    · simp only [Term.evalItems, bind_assoc, pure_bind]

theorem evalItems_eq_foldlM (items : List Term) (u : Table Value) :
    Term.evalItems items u = items.foldlM (fun u item => Term.evalItems [item] u) u := by
  induction items generalizing u with
  | nil => rfl
  | cons item rest ih =>
    rw [evalItems_cons, List.foldlM_cons]
    exact congrArg _ (funext ih)

/-- An item without a key comes first and is then appended. -/
theorem evalItems_plain {item : Term} {u : Table Value} (hitem : item.head?.isSome)
    (hentry : ∀ h key value, item ≠ .entry h key value) (hbyref : item.byref = false) :
    Term.evalItems [item] u = (do
      pushPending item (some .read)
      resume (within item (item.eval (some .read)))
      let v ← popView
      pure (u.append v.value.defined)) := by
  cases item with
  | absent | foreign => cases hitem
  | entry h key value => exact absurd rfl (hentry h key value)
  | _ =>
    rw [Term.evalItems.eq_def]
    simp only [hbyref, Bool.false_eq_true, if_false, Term.evalItems]

/-- The entry's value waits while its key is evaluated. -/
theorem evalItems_keyed {u : Table Value} (hbyref : h.byref = false) (hkey : key.isAbsent = false) :
    Term.evalItems [.entry h key value] u = (do
      pushPending value (some .read)
      pushPending key (some .read)
      resume (within key (key.eval (some .read)))
      let k ← popView
      let x ← noting h.place.line false k.value.toKey
      resume (within value (value.eval (some .read)))
      let v ← popView
      pure (u.set x v.value.defined)) := by
  rw [Term.evalItems.eq_def]
  cases key with
  | absent => cases hkey
  | _ => simp only [hbyref, Bool.false_eq_true, if_false, Term.evalItems]

theorem ItemCall.stopsWith {item : Term} {u : Table Value} (hcall : ItemCall item m s)
    (hs : s.Fails e) : StopsWith (Term.evalItems [item] u) m e := by
  cases hcall with
  | value hbyref hfirst =>
    rw [Term.evalItems.eq_def]
    simp only [hbyref, Bool.false_eq_true, if_false]
    exact hfirst.stopsWith hs
  | key hbyref hkey hvalue =>
    rw [evalItems_keyed hbyref hkey]
    simp only [StopsWith, ends_bind, ends_pushPending, hkey, hvalue, Bool.false_eq_true, if_false]
    exact (stopsWith_resume hs).ends
  | keyed hbyref hkey hvalue hk hx =>
    rw [evalItems_keyed hbyref hkey]
    simp only [StopsWith, ends_bind, ends_pushPending, hkey, hvalue, Bool.false_eq_true, if_false]
    refine ends_of_obtains hk ?_
    rw [ends_noting]
    refine ends_of_ok hx ?_
    exact (stopsWith_resume (m := logged _ _ _ _) hs).ends
  | plain hitem hentry hbyref hfirst =>
    rw [evalItems_plain hitem hentry hbyref]
    exact hfirst.stopsWith hs

theorem traced_entry {u : Table Value} (hbyref : h.byref = false) :
    Ends (Term.evalItems [.entry h key value] u) m (fun _ _ => True)
      (Traced (ItemCall (.entry h key value) m)) := by
  cases hkey : key.isAbsent with
  | true =>
    obtain rfl := Term.eq_absent hkey
    rw [Term.evalItems.eq_def]
    simp only [hbyref, Bool.false_eq_true, if_false]
    refine traced_mono (traced_first fun _ => ?_) fun _ => .value hbyref
    exact unplaced_popView.bind fun _ => unplaced_pure _
  | false =>
    rw [evalItems_keyed hbyref hkey]
    simp only [ends_bind, ends_pushPending, hkey, Bool.false_eq_true, if_false]
    split
    · exact .inl rfl
    rename_i hvalue
    rw [Bool.not_eq_true] at hvalue
    refine traced_obtains_facing (by decide) (.key hbyref hkey hvalue) fun k m₁ hk => ?_
    rw [ends_noting]
    have hrun : Ends k.value.toKey [] (fun x remarks => k.value.toKey.outcome = (.ok x, remarks))
        fun _ _ => True := ends_iff.2 ⟨fun _ _ hx => hx, fun _ _ _ => trivial⟩
    refine (hrun.and (Placeless.toKey k.value [])).mono ?_ fun _ _ hf => .inl hf.2
    rintro x remarks ⟨hx, -⟩
    have hcall : ItemCall (.entry h key value) m
        (.node value (some .read) (logged h.place.line false remarks m₁)) :=
      .keyed hbyref hkey hvalue hk hx
    refine (traced_resume hcall).mono (fun _ m₂ _ => ?_) fun _ _ hf => hf
    have hrest : Unplaced (do
        let v ← popView
        pure (u.set x v.value.defined)) := unplaced_popView.bind fun _ => unplaced_pure _
    simpa only [ends_bind] using hrest.traced _ m₂

theorem traced_item {item : Term} {u : Table Value} :
    Ends (Term.evalItems [item] u) m (fun _ _ => True) (Traced (ItemCall item m)) := by
  have hplain : item.head?.isSome → (∀ h key value, item ≠ .entry h key value) →
      item.byref = false →
      Ends (Term.evalItems [item] u) m (fun _ _ => True) (Traced (ItemCall item m)) := by
    intro hitem hentry hbyref
    rw [evalItems_plain hitem hentry hbyref]
    refine traced_mono (traced_first fun _ => ?_) fun _ => .plain hitem hentry hbyref
    exact unplaced_popView.bind fun _ => unplaced_pure _
  cases hbyref : item.byref with
  | true =>
    -- Nothing is evaluated under a mark.
    cases item with
    | absent | foreign => cases hbyref
    | entry h key value =>
      have hmark : h.byref = true := hbyref
      rw [Term.evalItems.eq_def]
      simp only [hmark, if_true]
      exact .inl rfl
    | _ =>
      rw [Term.evalItems.eq_def]
      simp only [hbyref, if_true]
      exact .inl rfl
  | false =>
    cases item with
    | absent => exact trivial
    | foreign => exact .inl trivial
    | entry h key value => exact traced_entry hbyref
    | _ => exact hplain rfl (by simp) hbyref

theorem evalEcho_eq_foldlM (operands : List Term) :
    Term.evalEcho operands = operands.foldlM (fun _ operand => Term.evalEcho [operand]) () := by
  induction operands with
  | nil => rfl
  | cons operand rest ih =>
    have hrest : (fun _ : Unit => Term.evalEcho rest) =
        fun u => rest.foldlM (fun _ operand => Term.evalEcho [operand]) u := funext fun _ => ih
    rw [List.foldlM_cons, ← hrest]
    simp only [Term.evalEcho, bind_assoc, pure_bind]

theorem traced_operand {operand : Term} :
    Ends (Term.evalEcho [operand]) m (fun _ _ => True) (Traced (FirstCall operand .read m)) := by
  rw [Term.evalEcho]
  refine traced_first fun _ => unplaced_popView.bind fun v => ?_
  exact (unplaced_noting (.toText _) _ _).bind fun _ => (unplaced_print _).bind fun _ =>
    unplaced_pure _

/-! ## Nodes -/

/-- A statement evaluates its expression to be read; an assignment or a variable it runs itself, and
a bare literal it ignores. -/
def isRead : Term → Bool
  | .absent | .foreign | .array .. | .assign .. | .variable .. => false
  | .literal h _ => h.kind == "nullkeyword"
  | _ => true

/-- Evaluating the node for the intent, from the machine it was taken off, makes the call. -/
inductive Calls : Term → Option Intent → Machine → Site → Prop
  | statement {h : Head} {t : Term} {i : Option Intent} {m : Machine} (ht : isRead t = true) :
    Calls (.statement h t) i m (.node t (some .read) m)
  /-- A call of the assignment is one of its statement. -/
  | direct {h hd : Head} {op : Datum} {target value : Term} {i : Option Intent} {m : Machine}
    {s : Site} (hs : Calls (.assign hd op target value) none m s) :
    Calls (.statement h (.assign hd op target value)) i m s
  | read {h : Head} {base key : Term} {intent : Intent} {m : Machine} {s : Site}
    (hintent : intent ≠ .write) (hs : ReadCall base key intent m s) :
    Calls (.subscript h base key) (some intent) m s
  | keys {h : Head} {base key : Term} {m : Machine} {s : Site}
    (hs : KeyCall (.subscript h base key) m s) :
    Calls (.subscript h base key) (some .write) m s
  | resolve {h : Head} {base key : Term} {m m₁ : Machine} {levels : List Level} {s : Site}
    (hkeys : (Term.subscript h base key).evalKeys.outcome m = (.ok levels, m₁))
    (hs : ResolveCall (Term.subscript h base key).root levels m₁ s) :
    Calls (.subscript h base key) (some .write) m s
  | unary {h : Head} {op : Datum} {operand : Term} {i : Option Intent} {m : Machine} {s : Site}
    (hi : i ≠ some .write) (hs : FirstCall operand .read m s) : Calls (.unary h op operand) i m s
  | binary {h : Head} {op : Datum} {left right : Term} {i : Option Intent} {m : Machine} {s : Site}
    (hi : i ≠ some .write)
    (hs : BinaryCall (Operator.ofDatum BinaryOp.ofSymbol? op) left right m s) :
    Calls (.binary h op left right) i m s
  | assign {h : Head} {op : Datum} {target value : Term} {i : Option Intent} {m : Machine}
    {s : Site} (hi : i ≠ some .write) (hop : isPlain op = true) (hforeign : value ≠ .foreign)
    (hbyref : value.byref = false) (hs : AssignCall target value m s) :
    Calls (.assign h op target value) i m s
  | reference {h hd : Head} {op name : Datum} {source : Term} {i : Option Intent} {m : Machine}
    {s : Site} (hi : i ≠ some .write) (hop : isPlain op = true) (hbyref : source.byref = true)
    (hsource : isPlace source = true) (hs : FirstCall source .write m s) :
    Calls (.assign h op (.variable hd name) source) i m s
  | compound {h : Head} {op : Datum} {known : BinaryOp} {target value : Term} {i : Option Intent}
    {m : Machine} {s : Site} (hi : i ≠ some .write) (hop : isPlain op = false)
    (hknown : Operator.ofDatum compoundOp? op = .known known)
    (hs : CompoundCall known target value m s) : Calls (.assign h op target value) i m s
  | array {h : Head} {items : List Term} {i : Option Intent} {m : Machine} {s : Site}
    (hi : i ≠ some .write)
    (hs : InTurn (fun u item => Term.evalItems [item] u) (fun _ => ItemCall) items .empty m s) :
    Calls (.array h true items) i m s
  | echo {h : Head} {operands : List Term} {i : Option Intent} {m : Machine} {s : Site}
    (hi : i ≠ some .write)
    (hs : InTurn (fun _ operand => Term.evalEcho [operand])
      (fun _ operand => FirstCall operand .read) operands () m s) :
    Calls (.echo h true operands) i m s

theorem statementBody_read (ht : isRead t = true) (f : Option Intent → Run Unit) :
    statementBody t f = within t (f (some .read)) := by
  cases t with
  | literal h d =>
    have hkind : h.kind = "nullkeyword" := by simpa [isRead] using ht
    rw [statementBody, if_pos hkind]
  | absent | foreign | array | assign | «variable» => cases ht
  | _ => rfl

theorem writable_of_ne (hintent : intent? ≠ some .write) : writable intent? = pure () :=
  if_neg hintent

theorem eval_reference {source : Term} (hi : intent? ≠ some .write)
    (hop : isPlain operator = true) (hforeign : source ≠ .foreign) (hbyref : source.byref = true) :
    (Term.assign h operator target source).eval intent? =
      referenceBody target source (source.eval (some .write)) := by
  rw [Term.eval.eq_def]
  simp only [writable_of_ne hi, pure_bind, hop, hbyref, if_true]

theorem eval_compound_of_known {op : BinaryOp} (hi : intent? ≠ some .write)
    (hop : isPlain operator = false) (hknown : Operator.ofDatum compoundOp? operator = .known op) :
    (Term.assign h operator target value).eval intent? =
      compoundBody h op target value target.evalKeys target.evalRoot (value.eval (some .read)) := by
  rw [Term.eval.eq_def]
  simp only [writable_of_ne hi, pure_bind, hop, hknown, Bool.false_eq_true, if_false]

/-- If a call of an evaluation fails, the evaluation fails with the same error. -/
theorem Calls.stopsWith (hcall : Calls t intent? m s) (hs : s.Fails e) :
    StopsWith (t.eval intent?) m e := by
  induction hcall with
  | statement ht =>
    rw [Term.eval, statementBody_read ht]
    exact stopsWith_node hs
  | direct _ ih =>
    rw [Term.eval]
    exact ih hs
  | @read _ base key _ _ _ hintent hread =>
    have hkey : key.isAbsent = false := by cases hread <;> assumption
    rw [eval_subscript hintent hkey]
    exact hread.stopsWith hintent hs
  | keys hkey =>
    rw [eval_subscript_write, StopsWith, ends_bind, ends_bind]
    exact (hkey.stopsWith hs).ends
  | resolve hkeys hresolve =>
    rw [eval_subscript_write, StopsWith, ends_bind, ends_bind]
    refine ends_of_ok hkeys ?_
    exact (hresolve.stopsWith (Term.root_ne_subscript _) hs).ends
  | unary hi hfirst =>
    rw [Term.eval, writable_of_ne hi, pure_bind]
    exact hfirst.stopsWith hs
  | binary hi hbinary =>
    rw [Term.eval, writable_of_ne hi, pure_bind]
    exact hbinary.stopsWith hs
  | assign hi hop hforeign hbyref hassign =>
    rw [eval_assign hop hforeign hbyref hi]
    exact hassign.stopsWith hs
  | @reference _ _ _ _ source _ _ _ hi hop hbyref hsource hfirst =>
    have hforeign : source ≠ .foreign := by
      rintro rfl
      cases hsource
    rw [eval_reference hi hop hforeign hbyref]
    exact referenceBody_stopsWith hsource hfirst hs
  | compound hi hop hknown hcompound =>
    rw [eval_compound_of_known hi hop hknown]
    exact hcompound.stopsWith hs
  | array hi hitems =>
    rw [Term.eval, writable_of_ne hi, pure_bind, listed, if_pos rfl, pure_bind, StopsWith,
      ends_bind, evalItems_eq_foldlM]
    refine (hitems.stopsWith fun _ item m hitem => ?_).ends
    exact hitem.stopsWith hs
  | echo hi hoperands =>
    rw [Term.eval, writable_of_ne hi, pure_bind, listed, if_pos rfl, pure_bind, StopsWith,
      ends_bind, evalEcho_eq_foldlM]
    refine (hoperands.stopsWith fun _ operand m hfirst => ?_).ends
    rw [Term.evalEcho]
    exact hfirst.stopsWith hs

theorem traced_assign (hi : intent? ≠ some .write) :
    Ends ((Term.assign h operator target value).eval intent?) m (fun _ _ => True)
      (Traced (Calls (.assign h operator target value) intent? m)) := by
  cases hop : isPlain operator with
  | true =>
    by_cases hforeign : value = .foreign
    · obtain rfl := hforeign
      rw [Term.eval.eq_def]
      simp only [writable_of_ne hi, pure_bind, hop, if_true]
      exact .inl trivial
    · cases hbyref : value.byref with
      | false =>
        rw [eval_assign hop hforeign hbyref hi]
        exact traced_mono traced_assignBody fun _ => .assign hi hop hforeign hbyref
      | true =>
        rw [eval_reference hi hop hforeign hbyref]
        refine traced_mono traced_referenceBody ?_
        rintro s ⟨⟨hd, name, rfl⟩, hsource, hfirst⟩
        exact .reference hi hop hbyref hsource hfirst
  | false =>
    cases hknown : Operator.ofDatum compoundOp? operator with
    | known op =>
      rw [eval_compound_of_known hi hop hknown]
      exact traced_mono traced_compoundBody fun _ => .compound hi hop hknown
    | unknown text =>
      rw [Term.eval.eq_def]
      simp only [writable_of_ne hi, pure_bind, hop, hknown, Bool.false_eq_true, if_false]
      exact .inl rfl
    | wrongShape =>
      rw [Term.eval.eq_def]
      simp only [writable_of_ne hi, pure_bind, hop, hknown, Bool.false_eq_true, if_false]
      exact .inl trivial

/-- An evaluation that fails without a failing call fails with an error that has no place yet. -/
theorem traced_eval (t : Term) (intent? : Option Intent) (m : Machine) :
    Ends (t.eval intent?) m (fun _ _ => True) (Traced (Calls t intent? m)) := by
  -- Most nodes cannot be written.
  have hwritable : ∀ {act : Run Unit}, (intent? ≠ some .write →
      Ends act m (fun _ _ => True) (Traced (Calls t intent? m))) →
      Ends (writable intent? >>= fun _ => act) m (fun _ _ => True)
        (Traced (Calls t intent? m)) := by
    intro act hact
    by_cases hi : intent? = some .write
    · rw [writable, if_pos hi]
      exact .inl rfl
    · rw [writable_of_ne hi, pure_bind]
      exact hact hi
  cases t with
  | absent | foreign => exact .inl trivial
  | program | entry | other =>
    rw [Term.eval]
    exact hwritable fun _ => .inl rfl
  | literal h d =>
    rw [Term.eval]
    exact hwritable fun _ => ((unplaced_literalValue d).bind fun _ => unplaced_push _).traced _ m
  | «variable» h name =>
    rw [Term.eval]
    exact (unplaced_variableBody name intent?).traced _ m
  | global h iterable targets =>
    rw [Term.eval]
    refine hwritable fun _ => ((unplaced_listed iterable).bind fun _ => ?_).traced _ m
    exact (unplaced_globalNames targets).bind fun _ => unplaced_push _
  | unset h iterable targets =>
    rw [Term.eval]
    refine hwritable fun _ => ((unplaced_listed iterable).bind fun _ => ?_).traced _ m
    exact (unplaced_unsetNames targets).bind fun _ => unplaced_push _
  | statement h e =>
    rw [Term.eval]
    cases hread : isRead e with
    | true =>
      rw [statementBody_read hread]
      exact traced_node (.statement hread)
    | false =>
      cases e with
      | absent | foreign => exact .inl rfl
      | array => exact trivial
      | «variable» hd name =>
        rw [statementBody, Term.eval]
        exact (unplaced_variableBody name none).traced _ m
      | assign hd op target value =>
        exact traced_mono (traced_assign (by decide)) fun _ => .direct
      | literal hd d =>
        have hkind : hd.kind ≠ "nullkeyword" := by simpa [isRead] using hread
        rw [statementBody, if_neg hkind]
        exact trivial
      | _ => cases hread
  | array h iterable items =>
    rw [Term.eval]
    refine hwritable fun hi => ?_
    cases iterable with
    | false => exact .inl trivial
    | true =>
      rw [listed, if_pos rfl, pure_bind, ends_bind, evalItems_eq_foldlM]
      exact traced_then (traced_inTurn fun _ item _ _ => traced_item) (fun _ => .array hi)
        fun _ _ _ => trivial
  | echo h iterable operands =>
    rw [Term.eval]
    refine hwritable fun hi => ?_
    cases iterable with
    | false => exact .inl trivial
    | true =>
      rw [listed, if_pos rfl, pure_bind, ends_bind, evalEcho_eq_foldlM]
      exact traced_then (traced_inTurn fun _ operand _ _ => traced_operand) (fun _ => .echo hi)
        fun _ _ _ => trivial
  | subscript h base key =>
    cases intent? with
    | none => exact .inl rfl
    | some intent =>
      by_cases hintent : intent = .write
      · obtain rfl := hintent
        rw [eval_subscript_write, ends_bind, ends_bind]
        refine traced_then (traced_keys _ m) (fun _ => .keys) fun levels m₁ hkeys => ?_
        exact traced_then (traced_resolve _ levels m₁) (fun _ => .resolve hkeys)
          fun _ _ _ => trivial
      · cases habsent : key.isAbsent with
        | false =>
          rw [eval_subscript hintent habsent]
          exact traced_mono (traced_readSubscript hintent) fun _ => .read hintent
        | true =>
          obtain rfl := Term.eq_absent habsent
          cases intent with
          | write => exact absurd rfl hintent
          | read | isset => exact .inl rfl
  | unary h op operand =>
    rw [Term.eval]
    refine hwritable fun hi => traced_mono traced_unaryBody fun _ => .unary hi
  | binary h op left right =>
    rw [Term.eval]
    exact hwritable fun hi => traced_mono traced_binaryBody fun _ => .binary hi
  | assign h op target value =>
    by_cases hi : intent? = some .write
    · rw [Term.eval.eq_def, hi]
      exact .inl rfl
    · exact traced_assign hi

end Run

end PhpInterpreter
