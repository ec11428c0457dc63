import PhpInterpreter.Proofs.Machine.Parallel

/-!
Evaluation of a term and of the same term with other lines, side by side: body after body and then
by induction on terms, both do alike.
-/

namespace PhpInterpreter

open Run

def Level.mapPlace (f : Place → Place) (level : Level) : Level :=
  { level with place := f level.place }

/-- The name of a target, if it has one, is among some names. -/
def Term.NamesIn (P : String → Prop) : Term → Prop
  | .variable _ name => ∀ s, Run.variableName name = pure s → P s
  | _ => True

namespace Comparison

variable {C : Comparison} {α : Type} {m m' : Machine} {h : Head} {base key target source left right
  operand value : Term} {place : Bool}

theorem Tied.variableName {Q : String → String → Machine → Machine → Prop} (hm : C.Tied m m')
    (d : Datum) (hQ : ∀ s, Run.variableName d = pure s → Q s s m m') :
    C.Both (variableName d) (variableName (d.mapPlace C.lines.place)) m m' Q := by
  rw [Run.variableName_mapPlace]
  obtain ⟨s, hs⟩ | ⟨e, he⟩ | ⟨b, hb⟩ := Run.variableName_cases d
  · rw [hs]
    exact hQ s hs
  · rw [he]
    exact hm.fatal e
  · rw [hb]
    exact hm.breach b

/-! ## Places -/

theorem Target.child {l l' : Location} {e : Environment} (h : C.Target l l' e) (k : Key) :
    C.Target (l.child k) (l'.child k) e := ⟨h.alike.child k, h.writable⟩

theorem Target.atChar {l l' : Location} {e : Environment} (h : C.Target l l' e) (n : Int) :
    C.Target (l.atChar n) (l'.atChar n) e := ⟨h.alike.atChar n, h.writable⟩

theorem Target.container {l l' : Location} {e : Environment} (h : C.Target l l' e) :
    C.Target l.container l'.container e := ⟨h.alike.container, h.writable⟩

theorem Tied.element {t : Table Value} {l l' : Location} {key? : Option Key}
    {Q : Location → Location → Machine → Machine → Prop} (hm : C.Tied m m')
    (hl : C.Target l l' m.env)
    (hQ : ∀ k k' t t', C.Tied t t' → C.Target k k' t.env → Q k k' t t') :
    C.Both (element t l key?) (element t l' key?) m m' Q := by
  have hmake : ∀ k, C.Both (do Run.store (l.child k) .null; return l.child k)
      (do Run.store (l'.child k) .null; return l'.child k) m m' Q := fun k =>
    .bind (hm.store .null (hl.child k) fun t t' ht hk => hQ _ _ t t' ht hk)
  unfold Run.element
  split
  · exact hmake _
  · rename_i k
    split
    · exact hmake k
    · exact hQ _ _ m m' hm (hl.child k)

theorem Tied.character {level : Level} {l l' : Location} {s : String}
    {Q : Location → Location → Machine → Machine → Prop} (hm : C.Tied m m')
    (hl : C.Target l l' m.env)
    (hQ : ∀ k k' t t', C.Tied t t' → C.Target k k' t.env → Q k k' t t') :
    C.Both (character level l s) (character (level.mapPlace C.lines.place) l' s) m m' Q := by
  -- Remarks leave the environment as it is, so the slot may still be written after them.
  have hfinish : ∀ (offset position : Int) t t', C.Tied t t' → t.env = m.env →
      C.Both (do
        if position < 0 then
          Run.noting level.place.line false
            (Noting.mention false ((integerText offset).map .offsetBeforeStart))
        return l.atChar position) (do
        if position < 0 then
          Run.noting (C.lines.line level.place.line) false
            (Noting.mention false ((integerText offset).map .offsetBeforeStart))
        return l'.atChar position) t t' Q := by
    intro offset position t t' ht henv
    have hslot : ∀ u u', C.Tied u u' → u.env = t.env →
        Q (l.atChar position) (l'.atChar position) u u' := by
      intro u u' hu henv'
      refine hQ _ _ u u' hu ?_
      rw [henv', henv]
      exact hl.atChar position
    split
    · exact .bind (ht.mention _ _ _ hslot)
    · exact hslot t t' ht rfl
  unfold Run.character Level.mapPlace
  dsimp only
  split
  · exact hm.fatal _
  · split
    · exact hm.fatal _
    · rename_i key _
      cases key with
      | int k => exact .bind (both_pure (hfinish k _ m m' hm rfl))
      | str k =>
        refine .bind (hm.remark _ _ _ fun t t' ht henv => ?_)
        exact .bind (both_pure (hfinish 0 _ t t' ht henv))

theorem Tied.descend {level : Level} {l? l?' : Option Location}
    {Q : Option Location → Option Location → Machine → Machine → Prop} (hm : C.Tied m m')
    (hl : C.Targets l? l?' m.env)
    (hQ : ∀ l? l?' t t', C.Tied t t' → C.Targets l? l?' t.env → Q l? l?' t t') :
    C.Both (descend level l?) (descend (level.mapPlace C.lines.place) l?') m m' Q := by
  have hfound : ∀ l l' t t', C.Tied t t' → C.Target l l' t.env → Q (some l) (some l') t t' :=
    fun l l' t t' ht hl => hQ (some l) (some l') t t' ht (.some hl)
  unfold Run.descend
  cases hl with
  | none => exact hQ none none m m' hm .none
  | @some l l' hl =>
    have hchar : l'.char? = l.char? := by
      obtain ⟨⟨-, -, -⟩, -⟩ := hl
      rfl
    dsimp only
    rw [hchar]
    split
    · exact hm.fatal _
    · refine .bind (hm.load hl.alike fun v => ?_)
      cases v with
      | undefined | null =>
        refine .bind (hm.store _ hl fun t t' ht hl => ?_)
        exact .bind (ht.element hl hfound)
      | array u => exact .bind (hm.element hl hfound)
      | bool b | number x =>
        exact .bind (hm.remark _ _ _ fun t t' ht _ => hQ none none t t' ht .none)
      | string s => exact .bind (hm.character hl hfound)
      | object x c => exact hm.fatal _

theorem Tied.descendAll {levels : List Level} {l? l?' : Option Location}
    {Q : Option Location → Option Location → Machine → Machine → Prop} (hm : C.Tied m m')
    (hl : C.Targets l? l?' m.env)
    (hQ : ∀ l? l?' t t', C.Tied t t' → C.Targets l? l?' t.env → Q l? l?' t t') :
    C.Both (descendAll levels l?)
      (descendAll (levels.map (Level.mapPlace C.lines.place)) l?') m m' Q := by
  induction levels generalizing l? l?' m m' with
  | nil => exact hQ l? l?' m m' hm hl
  | cons level rest ih =>
    refine .bind (both_located level.place (hm.descend hl fun l? l?' t t' ht hl => ?_))
    exact ih ht hl

theorem Tied.writeCharacter {line : Json} {l l' : Location} {offset : Int} {v : Value}
    {Q : Value → Value → Machine → Machine → Prop} (hm : C.Tied m m')
    (hl : C.Target l l' m.env) (hQ : ∀ w t t', C.Tied t t' → Q w w t t') :
    C.Both (writeCharacter line l offset v) (writeCharacter (C.lines.line line) l' offset v) m m'
      Q := by
  unfold Run.writeCharacter
  split
  · exact hQ _ m m' hm
  · refine .bind (hm.load hl.container.alike fun w => ?_)
    cases w with
    | string s =>
      refine .bind (hm.noting (.toText v) _ _ fun text t t' ht henv => ?_)
      dsimp only
      split
      · exact ht.fatal _
      · rename_i c more _
        have hwrite : ∀ t t', C.Tied t t' → t.env = m.env → C.Both (do
            if maxInt < offset then Run.crash .outOfRange
            else
              Run.store l.container (.string (String.ofList (writeAt s.toList offset.toNat c)))
              return Value.string c.toString) (do
            if maxInt < offset then Run.crash .outOfRange
            else
              Run.store l'.container (.string (String.ofList (writeAt s.toList offset.toNat c)))
              return Value.string c.toString) t t' Q := by
          intro t t' ht henv
          split
          · exact ht.crash _
          · refine .bind (ht.store _ ?_ fun u u' hu _ => hQ _ u u' hu)
            rw [henv]
            exact hl.container
        split
        · refine .bind (ht.remark _ _ _ fun u u' hu henv' => hwrite u u' hu ?_)
          rw [henv', henv]
        · exact .bind (both_pure (hwrite t t' ht henv))
    | _ => exact hm.breach _

theorem Tied.writeTo {line : Json} {l? l?' : Option Location} {v : Value}
    {Q : View → View → Machine → Machine → Prop} (hm : C.Tied m m')
    (hl : C.Targets l? l?' m.env)
    (hQ : ∀ w w' t t', C.Tied t t' → w.Alike C.bond.cells w' → Q w w' t t') :
    C.Both (writeTo line l? v) (writeTo (C.lines.line line) l?' v) m m' Q := by
  unfold Run.writeTo
  cases hl with
  | none => exact hQ _ _ m m' hm (View.alike_fresh _)
  | @some l l' hl =>
    have hchar : l'.char? = l.char? := by
      obtain ⟨⟨-, -, -⟩, -⟩ := hl
      rfl
    dsimp only
    rw [hchar]
    split
    · exact .bind (hm.writeCharacter hl fun w t t' ht => hQ _ _ t t' ht (View.alike_fresh w))
    · exact .bind (hm.store v hl fun t t' ht hl => hQ _ _ t t' ht (.mk v (.some hl.alike)))

theorem home_child {home? home?' : Option Location}
    (h : Option.Rel (Location.Alike C.bond.cells) home? home?') (k : Key) :
    Option.Rel (Location.Alike C.bond.cells) (home?.map (·.child k)) (home?'.map (·.child k)) := by
  cases h with
  | none => exact .none
  | some h => exact .some (h.child k)

theorem Tied.peekAll {levels : List Level} {v v' : View}
    {Q : View → View → Machine → Machine → Prop} (hm : C.Tied m m') (hv : v.Alike C.bond.cells v')
    (hQ : ∀ w w' t t', C.Tied t t' → w.Alike C.bond.cells w' → Q w w' t t') :
    C.Both (peekAll levels v) (peekAll (levels.map (Level.mapPlace C.lines.place)) v') m m' Q := by
  induction levels generalizing v v' m m' with
  | nil => exact hQ v v' m m' hm hv
  | cons level rest ih =>
    rw [List.map_cons]
    unfold Run.peekAll
    cases hv with
    | mk value hhome =>
      dsimp only [Level.mapPlace]
      split
      · exact hm.fatal _
      · split
        · split
          · exact ih hm (.mk _ (home_child hhome _))
          · exact ih hm (View.alike_fresh _)
        · exact .bind (hm.noting (.charAt _ _ _) _ _ fun c t t' ht _ => ih ht (View.alike_fresh c))
        · exact hm.fatal _
        · exact ih hm (View.alike_fresh _)

/-! ## Bodies -/

theorem yields_fatal (e : Fatal) : C.Yields place (Run.fatal e) (Run.fatal e) :=
  fun _ _ hm => hm.fatal e

theorem yields_breach (b : Breach) : C.Yields place (Run.breach b) (Run.breach b) :=
  fun _ _ hm => hm.breach b

theorem yields_crash (c : Crash) : C.Yields place (Run.crash c) (Run.crash c) :=
  fun _ _ hm => hm.crash c

theorem Tied.view_pushed {l l' : Location} (hm : C.Tied m m') (hl : l.Alike C.bond.cells l') :
    C.Both (do Run.pushView (← Run.view l)) (do Run.pushView (← Run.view l')) m m'
      fun _ _ t t' => C.Tied t t' ∧ C.Topped place t :=
  .bind (hm.view hl fun _ _ hv => hm.pushView hv fun _ _ ht => ht)

theorem Tied.pushValue (hm : C.Tied m m') (v : Value) :
    C.Both (pushValue v) (pushValue v) m m' fun _ _ t t' => C.Tied t t' ∧ C.Topped place t :=
  hm.pushView (View.alike_fresh v) fun _ _ ht => ht

theorem yields_variable {name : Datum} {intent? : Option Intent} :
    C.Yields (Intent.locates intent?) (variableBody h name intent?)
      (variableBody (h.mapPlace C.lines.place) (name.mapPlace C.lines.place) intent?) := by
  intro m m' hm
  refine .bind (hm.variableName name fun s _ => ?_)
  split
  · exact .bind (hm.declare s fun l l' t t' ht hl => ht.pushLocation (.some hl) fun _ _ hu => hu)
  · exact .bind (hm.declare s fun l l' t t' ht hl => ht.view_pushed hl.alike)
  · refine .bind (hm.lookup s fun l? l?' t t' ht hl => ?_)
    cases hl with
    | some hl => exact ht.view_pushed hl
    | none => exact .bind (ht.remark _ _ _ fun u u' hu _ => hu.pushValue _)

theorem placeless_toNumber {d : Datum} {f : Fault} (hf : d.toNumber = .error f) : f.Placeless := by
  unfold Datum.toNumber at hf
  split at hf
  · obtain rfl := Except.error.inj hf
    rfl
  · cases hf
  · simp only [Literal.read] at hf
    split at hf
    · obtain rfl := Except.error.inj hf
      rfl
    · split at hf
      · cases hf
      · split at hf
        · cases hf
        · split at hf
          · cases hf
          · obtain rfl := Except.error.inj hf
            trivial

theorem Tied.literalValue {d : Datum} {Q : Value → Value → Machine → Machine → Prop}
    (hm : C.Tied m m') (hQ : ∀ v, Q v v m m') :
    C.Both (literalValue h d)
      (literalValue (h.mapPlace C.lines.place) (d.mapPlace C.lines.place)) m m' Q := by
  unfold Run.literalValue Head.mapPlace
  simp only [Datum.toNumber_mapPlace, Datum.toText_mapPlace, Datum.toBool_mapPlace]
  split
  · cases hd : d.toNumber with
    | ok x => exact hQ _
    | error f => exact hm.throw (placeless_toNumber hd)
  · exact hQ _
  · exact hQ _
  · exact hQ _

theorem Tied.subscriptView {byref quiet : Bool} {b b' : View} {k : Key}
    {Q : View → View → Machine → Machine → Prop} (hm : C.Tied m m') (hb : b.Alike C.bond.cells b')
    (hQ : ∀ w w' t t', C.Tied t t' → w.Alike C.bond.cells w' → Q w w' t t') :
    C.Both (subscriptView h byref quiet b k)
      (subscriptView (h.mapPlace C.lines.place) byref quiet b' k) m m' Q := by
  unfold Run.subscriptView
  cases hb with
  | mk value hhome =>
    dsimp only
    split
    · split
      · exact hm.fatal _
      · refine .bind (hm.noting (.charAt _ _ _) _ _ fun c t t' ht _ => ?_)
        exact hQ _ _ t t' ht (View.alike_fresh c)
    · split
      · exact hQ _ _ m m' hm (.mk _ (home_child hhome k))
      · exact .bind (hm.mention _ _ _ fun t t' ht _ => hQ _ _ t t' ht (View.alike_fresh _))
    · exact hm.fatal _
    · exact hQ _ _ m m' hm (View.alike_fresh _)

theorem keyOf_of_present {evalKey : Run Unit} (hkey : key.isAbsent = false) :
    keyOf h key evalKey = do
      Run.pushPending key (some .read)
      Run.resume (within key evalKey)
      let k ← Run.popView
      return some (← Run.noting h.place.line false k.value.toKey) := by
  cases key with
  | absent => cases hkey
  | _ => rfl

theorem Tied.keyOf {evalKey evalKey' : Run Unit}
    {Q : Option Key → Option Key → Machine → Machine → Prop} (hm : C.Tied m m')
    (hkey : C.Yields false evalKey evalKey') (hQ : ∀ k? t t', C.Tied t t' → Q k? k? t t') :
    C.Both (keyOf h key evalKey) (keyOf (h.mapPlace C.lines.place) (C.move key) evalKey') m m'
      Q := by
  cases habsent : key.isAbsent with
  | true =>
    cases key with
    | absent => exact hQ none m m' hm
    | _ => cases habsent
  | false =>
    have hmoved : (C.move key).isAbsent = false := by rwa [isAbsent_move]
    rw [keyOf_of_present habsent, keyOf_of_present hmoved]
    refine .bind (hm.pushPending key _ fun m m' hm => .bind (hm.resume key hkey ?_))
    refine fun m m' hm htop => .bind (hm.popView htop fun k k' m m' hm hk => ?_)
    cases hk with
    | mk value _ => exact .bind (hm.noting (.toKey _) _ _ fun k m m' hm _ => hQ _ m m' hm)

theorem yields_readSubscript {quiet : Bool} {evalBase evalBase' evalKey evalKey' : Run Unit}
    (hbase : C.Yields false evalBase evalBase') (hkey : C.Yields false evalKey evalKey') :
    C.Yields place (readSubscript h quiet base key evalBase evalKey)
      (readSubscript (h.mapPlace C.lines.place) quiet (C.move base) (C.move key) evalBase'
        evalKey') := by
  intro m m' hm
  unfold readSubscript
  rw [byref_move]
  refine .bind (hm.pushPending key _ fun m m' hm => .bind (hm.pushPending base _ ?_))
  refine fun m m' hm => .bind (hm.resume base hbase fun m m' hm htop => ?_)
  refine .bind (hm.popView htop fun b b' m m' hm hb => ?_)
  refine .bind (hm.holding hb (yields_resume key hkey) fun b b' m m' hm htop hb => ?_)
  refine .bind (hm.popView htop fun k k' m m' hm hk => ?_)
  cases hk with
  | mk value _ =>
    refine .bind (hm.noting (.toKey _) _ _ fun k m m' hm _ => ?_)
    exact .bind (hm.subscriptView hb fun w w' m m' hm hw => hm.pushView hw fun _ _ ht => ht)

theorem yields_binary {operator : Datum} {evalLeft evalLeft' : Option Intent → Run Unit}
    {evalRight evalRight' : Run Unit}
    (hleft : ∀ i, C.Yields (Intent.locates i) (evalLeft i) (evalLeft' i))
    (hright : C.Yields false evalRight evalRight') :
    C.Yields place (binaryBody h operator left right evalLeft evalRight)
      (binaryBody (h.mapPlace C.lines.place) (operator.mapPlace C.lines.place) (C.move left)
        (C.move right) evalLeft' evalRight') := by
  intro m m' hm
  unfold binaryBody
  rw [Run.ofDatum_mapPlace]
  refine .bind (hm.pushPending right _ fun m m' hm => .bind (hm.pushPending left _ ?_))
  refine fun m m' hm => .bind (hm.resume left (hleft _) fun m m' hm htop => ?_)
  -- The left operand is read, quietly or not.
  have hread : C.Topped false m := by
    revert htop
    split <;> exact id
  refine .bind (hm.popView hread fun l l' m m' hm hl => ?_)
  split
  · exact hm.crash _
  · refine .bind (hm.resume right hright fun m m' hm htop => ?_)
    exact .bind (hm.popView htop fun _ _ m m' hm _ => hm.breach _)
  · have hvalue : l'.value = l.value := by
      obtain ⟨value, -⟩ := hl
      rfl
    rw [hvalue]
    split
    · refine .bind (hm.pop fun _ _ m m' hm _ _ _ => hm.pushView ?_ fun _ _ ht => ht)
      split
      · exact hl
      · exact View.alike_fresh _
    · refine .bind (hm.holding hl (yields_resume right hright) fun l l' m m' hm htop hl => ?_)
      refine .bind (hm.popView htop fun r r' m m' hm hr => ?_)
      cases hl with
      | mk lvalue _ =>
        cases hr with
        | mk rvalue hhome =>
          split
          · exact hm.pushView (.mk _ hhome) fun _ _ ht => ht
          · exact .bind (hm.noting (.applyBinary _ _ _) _ _ fun v m m' hm _ => hm.pushValue v)

theorem yields_unary {operator : Datum} {evalOperand evalOperand' : Run Unit}
    (hoperand : C.Yields false evalOperand evalOperand') :
    C.Yields place (unaryBody h operator operand evalOperand)
      (unaryBody (h.mapPlace C.lines.place) (operator.mapPlace C.lines.place) (C.move operand)
        evalOperand') := by
  intro m m' hm
  refine .bind (hm.pushPending operand _ fun m m' hm => .bind (hm.resume operand hoperand ?_))
  refine fun m m' hm htop => .bind (hm.popView htop fun v v' m m' hm hv => ?_)
  have hshown := operator.shown_mapPlace C.lines.place
  cases hv with
  | mk value _ =>
    cases operator with
    | scalar x =>
      cases x with
      | string s =>
        dsimp only [Datum.mapPlace]
        split
        · exact .bind (hm.noting (.applyUnary _ _) _ _ fun w m m' hm _ => hm.pushValue w)
        · exact hm.breach _
      | _ => exact hm.breach _
    | list _ | dict _ | node _ =>
      dsimp only [Datum.mapPlace] at hshown ⊢
      rw [hshown]
      exact hm.breach _

theorem yields_assign {evalTarget evalTarget' evalValue evalValue' : Run Unit}
    (htarget : C.Yields true evalTarget evalTarget')
    (hvalue : C.Yields false evalValue evalValue') :
    C.Yields place (assignBody h target value evalTarget evalValue)
      (assignBody (h.mapPlace C.lines.place) (C.move target) (C.move value) evalTarget'
        evalValue') := by
  intro m m' hm
  refine .bind (hm.pushPending target _ fun m m' hm => .bind (hm.pushPending value _ ?_))
  refine fun m m' hm => .bind (hm.resume value hvalue fun m m' hm htop => ?_)
  refine .bind (hm.popView htop fun v v' m m' hm hv => .bind (hm.resume target htarget ?_))
  refine fun m m' hm htop => .bind (hm.popLocation htop fun l? l?' m m' hm hl => ?_)
  cases hv with
  | mk value _ =>
    exact .bind (hm.writeTo hl fun w w' m m' hm hw => hm.pushView hw fun _ _ ht => ht)

/-- Binding a name to a location that was resolved. -/
theorem yields_bound {name : Datum} {evalSource evalSource' : Run Unit}
    (hsource : C.Yields true evalSource evalSource') :
    C.Yields place (do
      Run.pushPending source (some .write)
      Run.resume (within source evalSource)
      match ← Run.popLocation with
      | none => Run.fatal .referenceToElement
      | some l =>
        if l.char?.isSome then Run.fatal .referenceToCharacter
        else if !l.path.isEmpty then Run.fatal .referenceToElement
        else
          let name ← Run.variableName name
          Run.inScope (Scoped.bind name l none)
          Run.pushView (← Run.view l)) (do
      Run.pushPending (C.move source) (some .write)
      Run.resume (within (C.move source) evalSource')
      match ← Run.popLocation with
      | none => Run.fatal .referenceToElement
      | some l =>
        if l.char?.isSome then Run.fatal .referenceToCharacter
        else if !l.path.isEmpty then Run.fatal .referenceToElement
        else
          let name ← Run.variableName (name.mapPlace C.lines.place)
          Run.inScope (Scoped.bind name l none)
          Run.pushView (← Run.view l)) := by
  intro m m' hm
  refine .bind (hm.pushPending source _ fun m m' hm => .bind (hm.resume source hsource ?_))
  refine fun m m' hm htop => .bind (hm.popLocation htop fun l? l?' m m' hm hl => ?_)
  cases hl with
  | none => exact hm.fatal _
  | @some l l' hl =>
    have hsame : l'.char? = l.char? ∧ l'.path = l.path := by
      obtain ⟨⟨-, -, -⟩, -⟩ := hl
      exact ⟨rfl, rfl⟩
    dsimp only
    rw [hsame.1, hsame.2]
    split
    · exact hm.fatal _
    · rename_i hchar
      split
      · exact hm.fatal _
      · rename_i hpath
        refine .bind (hm.variableName name fun s _ => ?_)
        have hbind := C.bond.bind s hm.envs hl.alike hl.writable (by simpa using hpath)
          (by simpa using hchar)
        exact .bind (hm.change hbind fun _ _ m m' hm => hm.view_pushed hl.alike)

theorem yields_reference {evalSource evalSource' : Run Unit}
    (hsource : C.Yields true evalSource evalSource') :
    C.Yields place (referenceBody target source evalSource)
      (referenceBody (C.move target) (C.move source) evalSource') := by
  cases target with
  | «variable» head name =>
    cases source with
    | «variable» head' name' => exact yields_bound hsource
    | subscript head' base key => exact yields_bound hsource
    | _ => exact yields_fatal _
  | _ => exact yields_fatal _

theorem gives_peekRoot (t : Term) :
    C.Gives (peekRoot t) (peekRoot (C.move t)) fun v w _ => v.Alike C.bond.cells w := by
  intro m m' hm
  match t with
  | .subscript h base key => exact gives_peekRoot base m m' hm
  | .variable h name =>
    refine .bind (hm.variableName name fun s _ => .bind (hm.lookup s fun l? l?' t t' ht hl => ?_))
    cases hl with
    | some hl => exact ht.view hl fun _ _ hv => ⟨ht, hv⟩
    | none => exact ⟨ht, View.alike_fresh _⟩
  | .absent | .foreign | .program .. | .statement .. | .echo .. | .global .. | .unset ..
  | .literal .. | .array .. | .entry .. | .unary .. | .binary .. | .assign .. | .other _ =>
    exact hm.fatal _

theorem gives_standing {op : BinaryOp} {levels : List Level} :
    C.Gives (standing op target levels)
      (standing op (C.move target) (levels.map (Level.mapPlace C.lines.place)))
      fun v? w? _ => Option.Rel (View.Alike C.bond.cells) v? w? := by
  intro m m' hm
  unfold standing
  split
  · refine .bind ((gives_peekRoot target m m' hm).mono ?_)
    rintro v w t t' ⟨ht, hv⟩
    refine .bind (ht.peekAll hv fun w w' u u' hu hw => both_pure ⟨hu, ?_⟩)
    have hview := hw
    cases hw with
    | mk value _ =>
      dsimp only
      split
      · exact .none
      · exact .some hview
  · exact ⟨hm, .none⟩

theorem Tied.loadOrNull {l? l?' : Option Location} {Q : Value → Value → Machine → Machine → Prop}
    (hm : C.Tied m m') (hl : C.Targets l? l?' m.env) (hQ : ∀ v, Q v v m m') :
    C.Both (loadOrNull l?) (loadOrNull l?') m m' Q := by
  cases hl with
  | none => exact hQ _
  | some hl => exact hm.load hl.alike hQ

/-- What `evalKeys` and `evalRoot` give in both runs. -/
def GivesKeys (C : Comparison) (evalKeys evalKeys' : Run (List Level)) : Prop :=
  C.Gives evalKeys evalKeys' fun levels levels' _ =>
    levels' = levels.map (Level.mapPlace C.lines.place)

def GivesRoot (C : Comparison) (evalRoot evalRoot' : Run (Option Location)) : Prop :=
  C.Gives evalRoot evalRoot' fun l? l?' e => C.Targets l? l?' e

theorem yields_descended (levels : List Level) {evalRoot evalRoot' : Run (Option Location)}
    (hroot : C.GivesRoot evalRoot evalRoot') :
    C.Yields true (do
      let root? ← evalRoot
      Run.pushLocation (← Run.descendAll levels root?)) (do
      let root? ← evalRoot'
      Run.pushLocation
        (← Run.descendAll (levels.map (Level.mapPlace C.lines.place)) root?)) := by
  intro m m' hm
  refine .bind ((hroot m m' hm).mono ?_)
  rintro root? root?' m m' ⟨hm, hl⟩
  exact .bind (hm.descendAll hl fun l? l?' m m' hm hl => hm.pushLocation hl fun _ _ ht => ht)

theorem yields_compound {op : BinaryOp} {evalKeys evalKeys' : Run (List Level)}
    {evalRoot evalRoot' : Run (Option Location)} {evalValue evalValue' : Run Unit}
    (hkeys : C.GivesKeys evalKeys evalKeys') (hroot : C.GivesRoot evalRoot evalRoot')
    (hvalue : C.Yields false evalValue evalValue') :
    C.Yields place (compoundBody h op target value evalKeys evalRoot evalValue)
      (compoundBody (h.mapPlace C.lines.place) op (C.move target) (C.move value) evalKeys'
        evalRoot' evalValue') := by
  intro m m' hm
  refine .bind ((hkeys m m' hm).mono ?_)
  rintro levels _ m m' ⟨hm, rfl⟩
  refine .bind ((gives_standing m m' hm).mono ?_)
  rintro v? w? m m' ⟨hm, hv⟩
  cases hv with
  | some hv => exact hm.pushView hv fun _ _ ht => ht
  | none =>
    refine .bind (hm.pushPending value _ fun m m' hm => .bind (hm.resume value hvalue ?_))
    refine fun m m' hm htop => .bind (hm.popView htop fun v v' m m' hm hv => ?_)
    refine .bind (hm.holding hv (yields_descended levels hroot) fun v v' m m' hm htop hv => ?_)
    refine .bind (hm.popLocation htop fun l? l?' m m' hm hl => ?_)
    refine .bind (hm.loadOrNull hl fun old => ?_)
    cases hv with
    | mk value _ =>
      refine .bind (hm.noting (.applyBinary _ _ _) _ _ fun w t t' ht henv => ?_)
      have hl' : C.Targets l? l?' t.env := by rwa [henv]
      exact .bind (ht.writeTo hl' fun w w' m m' hm hw => hm.pushView hw fun _ _ ht => ht)

/-! ## Statements -/

theorem yields_statement {e : Term} {evalExpression evalExpression' : Option Intent → Run Unit}
    (he : ∀ i, C.Yields (Intent.locates i) (evalExpression i) (evalExpression' i)) :
    C.Yields false (statementBody e evalExpression) (statementBody (C.move e) evalExpression') := by
  have hwithin : C.Yields false (within e (evalExpression (some .read)))
      (within (C.move e) (evalExpression' (some .read))) :=
    fun m m' hm => both_within e (he _ m m' hm)
  cases e with
  | absent | foreign => exact yields_breach _
  | array => exact fun m m' hm => hm.pushValue _
  | literal head d =>
    intro m m' hm
    unfold statementBody
    dsimp only [move, Term.mapPlace, Head.mapPlace]
    split
    · exact hwithin m m' hm
    · exact hm.pushValue _
  | assign | «variable» => exact he none
  | _ => exact hwithin

theorem gives_globalNames {targets : List Term}
    (hg : ∀ t ∈ targets, t.NamesIn C.bond.global) :
    C.Gives (globalNames targets) (globalNames (Term.mapPlaces C.lines.place targets))
      fun _ _ _ => True := by
  intro m m' hm
  induction targets generalizing m m' with
  | nil => exact ⟨hm, trivial⟩
  | cons t rest ih =>
    obtain ⟨ht, hrest⟩ := List.forall_mem_cons.1 hg
    cases t with
    | «variable» head name =>
      refine .bind (hm.variableName name fun s hs => ?_)
      exact .bind (hm.change (C.bond.bindGlobal hm.envs (ht s hs)) fun _ _ m m' hm =>
        ih hrest m m' hm)
    | _ => exact hm.fatal _

theorem gives_unsetNames {targets : List Term} :
    C.Gives (unsetNames targets) (unsetNames (Term.mapPlaces C.lines.place targets))
      fun _ _ _ => True := by
  intro m m' hm
  induction targets generalizing m m' with
  | nil => exact ⟨hm, trivial⟩
  | cons t rest ih =>
    cases t with
    | «variable» head name =>
      refine .bind (hm.variableName name fun s _ => ?_)
      exact .bind (hm.change (C.bond.unset s hm.envs) fun _ _ m m' hm => ih m m' hm)
    | _ => exact hm.fatal _

theorem yields_writable {act act' : Run Unit} {intent? : Option Intent}
    (hact : C.Yields place act act') :
    C.Yields place (do writable intent?; act) (do writable intent?; act') := by
  intro m m' hm
  unfold writable
  split
  · exact .bind (hm.fatal _)
  · exact .bind (both_pure (hact m m' hm))

theorem Tied.listed {iterable : Bool} {Q : Unit → Unit → Machine → Machine → Prop}
    (hm : C.Tied m m') (hQ : Q () () m m') :
    C.Both (listed iterable) (listed iterable) m m' Q := by
  unfold Run.listed
  split
  · exact hQ
  · exact hm.crash _

theorem yields_listed {intent? : Option Intent} {iterable : Bool} {act act' : Run Unit}
    (hact : C.Gives act act' fun _ _ _ => True) :
    C.Yields place (do
      writable intent?
      Run.listed iterable
      act
      Run.pushValue .null) (do
      writable intent?
      Run.listed iterable
      act'
      Run.pushValue .null) := by
  refine yields_writable fun m m' hm => .bind (hm.listed (.bind ((hact m m' hm).mono ?_)))
  rintro - - m m' ⟨hm, -⟩
  exact hm.pushValue _

end Comparison

/-! ## Terms -/

mutual

/-- The names that the global statements within a term list. -/
def Term.GlobalsIn (P : String → Prop) : Term → Prop
  | .absent | .foreign | .literal .. | .variable .. | .unset .. | .other _ => True
  | .global _ _ ts => ∀ t ∈ ts, t.NamesIn P
  | .program _ _ ts | .echo _ _ ts | .array _ _ ts => Term.GlobalsInAll P ts
  | .statement _ e | .unary _ _ e => e.GlobalsIn P
  | .entry _ a b | .subscript _ a b | .binary _ _ a b | .assign _ _ a b =>
    a.GlobalsIn P ∧ b.GlobalsIn P

def Term.GlobalsInAll (P : String → Prop) : List Term → Prop
  | [] => True
  | t :: rest => t.GlobalsIn P ∧ Term.GlobalsInAll P rest

end

namespace Comparison

variable {C : Comparison}

theorem move_levels (levels : List Level) (h : Head) (base : Term) (k? : Option Key) :
    levels.map (Level.mapPlace C.lines.place) ++
        [levelOf (h.mapPlace C.lines.place) (C.move base) k?] =
      (levels ++ [levelOf h base k?]).map (Level.mapPlace C.lines.place) := by
  rw [List.map_append, List.map_singleton, levelOf, byref_move]
  rfl

/-- Going through the items of an array literal, in both runs. -/
def GivesItems (C : Comparison) (items : List Term) : Prop :=
  ∀ u, C.Gives (Term.evalItems items u) (Term.evalItems (Term.mapPlaces C.lines.place items) u)
    fun t t' _ => t = t'

/-- The value of an item comes last, with or without a key; `add` puts it into the table. -/
theorem gives_itemValue {value : Term} {rest : List Term}
    (hvalue : C.Yields false (value.eval (some .read)) ((C.move value).eval (some .read)))
    (hrest : C.GivesItems rest) (add : Value → Table Value) :
    C.Gives (do
        Run.resume (within value (value.eval (some .read)))
        let v ← Run.popView
        Term.evalItems rest (add v.value.defined)) (do
        Run.resume (within (C.move value) ((C.move value).eval (some .read)))
        let v ← Run.popView
        Term.evalItems (Term.mapPlaces C.lines.place rest) (add v.value.defined))
      fun t t' _ => t = t' := by
  refine fun m m' hm => .bind (hm.resume value hvalue fun m m' hm htop => ?_)
  refine .bind (hm.popView htop fun v v' m m' hm hv => ?_)
  cases hv with
  | mk value _ => exact hrest _ m m' hm

theorem gives_plainItem {item : Term} {rest : List Term} {u : Table Value}
    (hitem : C.Yields false (item.eval (some .read)) ((C.move item).eval (some .read)))
    (hrest : C.GivesItems rest) :
    C.Gives (if item.byref then Run.fatal .referenceInArray
      else do
        Run.pushPending item (some .read)
        Run.resume (within item (item.eval (some .read)))
        let v ← Run.popView
        Term.evalItems rest (u.append v.value.defined))
      (if (C.move item).byref then Run.fatal .referenceInArray
      else do
        Run.pushPending (C.move item) (some .read)
        Run.resume (within (C.move item) ((C.move item).eval (some .read)))
        let v ← Run.popView
        Term.evalItems (Term.mapPlaces C.lines.place rest) (u.append v.value.defined))
      fun t t' _ => t = t' := by
  intro m m' hm
  rw [byref_move]
  split
  · exact hm.fatal _
  · refine .bind (hm.pushPending item _ fun m m' hm => ?_)
    exact gives_itemValue hitem hrest u.append m m' hm

theorem gives_entry {h : Head} {key value : Term} {rest : List Term} {u : Table Value}
    (hkey : C.Yields false (key.eval (some .read)) ((C.move key).eval (some .read)))
    (hvalue : C.Yields false (value.eval (some .read)) ((C.move value).eval (some .read)))
    (hrest : C.GivesItems rest) :
    C.Gives (Term.evalItems (.entry h key value :: rest) u)
      (Term.evalItems (.entry (h.mapPlace C.lines.place) (C.move key) (C.move value) ::
        Term.mapPlaces C.lines.place rest) u) fun t t' _ => t = t' := by
  have hkeyed : C.Gives (do
        Run.pushPending key (some .read)
        Run.resume (within key (key.eval (some .read)))
        let k ← Run.popView
        let k ← Run.noting h.place.line false k.value.toKey
        Run.resume (within value (value.eval (some .read)))
        let v ← Run.popView
        Term.evalItems rest (u.set k v.value.defined)) (do
        Run.pushPending (C.move key) (some .read)
        Run.resume (within (C.move key) ((C.move key).eval (some .read)))
        let k ← Run.popView
        let k ← Run.noting (C.lines.line h.place.line) false k.value.toKey
        Run.resume (within (C.move value) ((C.move value).eval (some .read)))
        let v ← Run.popView
        Term.evalItems (Term.mapPlaces C.lines.place rest) (u.set k v.value.defined))
      fun t t' _ => t = t' := by
    refine fun m m' hm => .bind (hm.pushPending key _ fun m m' hm => .bind (hm.resume key hkey ?_))
    refine fun m m' hm htop => .bind (hm.popView htop fun k k' m m' hm hk => ?_)
    cases hk with
    | mk value _ =>
      refine .bind (hm.noting (.toKey _) _ _ fun k m m' hm _ => ?_)
      exact gives_itemValue hvalue hrest (u.set k) m m' hm
  intro m m' hm
  rw [Term.evalItems.eq_def, Term.evalItems.eq_def]
  dsimp only [Head.mapPlace]
  split
  · exact hm.fatal _
  · refine .bind (hm.pushPending value _ fun m m' hm => ?_)
    cases key with
    | absent => exact gives_itemValue hvalue hrest u.append m m' hm
    | _ => exact hkeyed m m' hm

theorem yields_plainAssign (place : Bool) {h : Head} {target value : Term}
    (htarget : C.Yields true (target.eval (some .write)) ((C.move target).eval (some .write)))
    (hread : C.Yields false (value.eval (some .read)) ((C.move value).eval (some .read)))
    (hwrite : C.Yields true (value.eval (some .write)) ((C.move value).eval (some .write))) :
    C.Yields place
      (if value.byref then referenceBody target value (value.eval (some .write))
      else assignBody h target value (target.eval (some .write)) (value.eval (some .read)))
      (if (C.move value).byref then
        referenceBody (C.move target) (C.move value) ((C.move value).eval (some .write))
      else assignBody (h.mapPlace C.lines.place) (C.move target) (C.move value)
        ((C.move target).eval (some .write)) ((C.move value).eval (some .read))) := by
  rw [byref_move]
  split
  · exact yields_reference hwrite
  · exact yields_assign htarget hread

-- One statement for each function of the evaluator; the recursion is theirs, over terms.
mutual

theorem yields_eval (t : Term) (intent? : Option Intent) (hg : t.GlobalsIn C.bond.global) :
    C.Yields (Intent.locates intent?) (t.eval intent?) ((C.move t).eval intent?) := by
  match t with
  | .absent | .foreign => exact yields_crash _
  | .statement h e => exact (yields_statement fun i => yields_eval e i hg).value
  | .literal h d =>
    refine yields_writable fun m m' hm => ?_
    exact .bind (hm.literalValue fun v => hm.pushValue v)
  | .variable h name => exact yields_variable
  | .array h iterable items =>
    refine yields_writable fun m m' hm => .bind (hm.listed (.bind ?_))
    refine (gives_items items hg .empty m m' hm).mono ?_
    rintro u _ m m' ⟨hm, rfl⟩
    exact hm.pushValue _
  | .subscript h base key =>
    have hkey := yields_eval key (some .read) hg.2
    match intent? with
    | none => exact yields_breach _
    | some .write =>
      intro m m' hm
      refine .bind ((gives_keys base hg.1 m m' hm).mono ?_)
      rintro levels _ m m' ⟨hm, rfl⟩
      refine .bind (hm.keyOf hkey fun k? m m' hm => ?_)
      have hdown := yields_descended (levels ++ [levelOf h base k?]) (gives_root base hg.1) m m' hm
      rw [← move_levels] at hdown
      exact hdown
    | some .read | some .isset =>
      have hbase := fun intent => yields_eval base (some intent) hg.1
      cases key with
      | absent => exact yields_fatal _
      | _ => exact yields_readSubscript (hbase _) hkey
  | .unary h op operand => exact yields_writable (yields_unary (yields_eval operand _ hg))
  | .binary h op left right =>
    refine yields_writable (yields_binary (fun i => yields_eval left i hg.1) ?_)
    exact yields_eval right _ hg.2
  | .assign h op target value =>
    have hread := yields_eval value (some .read) hg.2
    have hplain := yields_plainAssign (Intent.locates intent?) (h := h)
      (yields_eval target (some .write) hg.1) hread (yields_eval value (some .write) hg.2)
    refine yields_writable ?_
    rw [Run.isPlain_mapPlace, Run.ofDatum_mapPlace]
    split
    · cases value with
      | foreign => exact yields_crash _
      | _ => exact hplain
    · split
      · exact yields_crash _
      · exact yields_breach _
      · exact yields_compound (gives_keys target hg.1) (gives_root target hg.1) hread
  | .echo h iterable operands => exact yields_listed (gives_echo operands hg)
  | .global h iterable targets => exact yields_listed (gives_globalNames hg)
  | .unset h iterable targets => exact yields_listed gives_unsetNames
  | .program h _ _ | .entry h _ _ | .other h => exact yields_writable (yields_breach _)

theorem gives_keys (t : Term) (hg : t.GlobalsIn C.bond.global) :
    C.GivesKeys t.evalKeys (C.move t).evalKeys := by
  match t with
  | .subscript h base key =>
    intro m m' hm
    refine .bind ((gives_keys base hg.1 m m' hm).mono ?_)
    rintro levels _ m m' ⟨hm, rfl⟩
    refine .bind (hm.keyOf (yields_eval key _ hg.2) fun k? m m' hm => ?_)
    exact both_pure ⟨hm, move_levels levels h base k?⟩
  | .absent | .foreign | .program .. | .statement .. | .echo .. | .global .. | .unset ..
  | .literal .. | .variable .. | .array .. | .entry .. | .unary .. | .binary .. | .assign ..
  | .other _ => exact fun m m' hm => ⟨hm, rfl⟩

theorem gives_root (t : Term) (hg : t.GlobalsIn C.bond.global) :
    C.GivesRoot t.evalRoot (C.move t).evalRoot := by
  have hpop : ∀ {place} m m', C.Tied m m' → C.Topped place m → C.Both popLocation popLocation m m'
      fun l? l?' t t' => C.Tied t t' ∧ C.Targets l? l?' t.env :=
    fun m m' hm htop => hm.popLocation htop fun l? l?' t t' ht hl => ⟨ht, hl⟩
  match t with
  | .subscript h base key => exact gives_root base hg.1
  | .absent => exact fun m m' hm => hm.breach _
  | .foreign => exact fun m m' hm => hm.crash _
  | .variable h name =>
    refine fun m m' hm => .bind (both_located h.place ((yields_variable m m' hm).mono ?_))
    exact fun _ _ m m' hm => hpop m m' hm.1 hm.2
  | .statement h e =>
    have hbody := yields_statement (e := e) fun i => yields_eval e i hg
    refine fun m m' hm => .bind (both_located h.place ((hbody m m' hm).mono ?_))
    exact fun _ _ m m' hm => hpop m m' hm.1 hm.2
  | .program h _ _ | .echo h _ _ | .global h _ _ | .unset h _ _ | .literal h _ | .array h _ _
  | .entry h _ _ | .unary h _ _ | .binary h _ _ _ | .assign h _ _ _ | .other h =>
    exact fun m m' hm => .bind (both_located h.place (hm.fatal _))

theorem gives_items (items : List Term) (hg : Term.GlobalsInAll C.bond.global items) :
    C.GivesItems items := by
  match items with
  | [] => exact fun u m m' hm => ⟨hm, rfl⟩
  | item :: rest =>
    have hitem := yields_eval item (some .read) hg.1
    have hrest := gives_items rest hg.2
    cases item with
    | absent => exact hrest
    | foreign => exact fun u m m' hm => hm.crash _
    | entry h key value =>
      exact fun u => gives_entry (yields_eval key _ hg.1.1) (yields_eval value _ hg.1.2) hrest
    | _ => exact fun u => gives_plainItem hitem hrest

theorem gives_echo (operands : List Term) (hg : Term.GlobalsInAll C.bond.global operands) :
    C.Gives (Term.evalEcho operands) (Term.evalEcho (Term.mapPlaces C.lines.place operands))
      fun _ _ _ => True := by
  match operands with
  | [] => exact fun m m' hm => ⟨hm, trivial⟩
  | e :: rest =>
    have hline : ((C.move e).head?.map (·.place.line)).getD .null =
        C.lines.line ((e.head?.map (·.place.line)).getD .null) := by
      rw [move, Term.head?_mapPlace]
      cases e.head? with
      | none => exact C.lines.line_null.symm
      | some head => rfl
    have hprint : ∀ (v : Value) m m', C.Tied m m' →
        C.Both (do
          Run.print (← Run.noting ((e.head?.map (·.place.line)).getD .null) false v.toText)
          Term.evalEcho rest) (do
          Run.print
            (← Run.noting (((C.move e).head?.map (·.place.line)).getD .null) false v.toText)
          Term.evalEcho (Term.mapPlaces C.lines.place rest)) m m'
          fun _ _ t t' => C.Tied t t' ∧ True := by
      intro v m m' hm
      rw [hline]
      refine .bind (hm.noting (.toText _) _ _ fun s m m' hm _ => .bind (hm.print s ?_))
      exact fun m m' hm => gives_echo rest hg.2 m m' hm
    intro m m' hm
    have hread := yields_eval e (some .read) hg.1
    refine .bind (hm.pushPending e _ fun m m' hm => .bind (hm.resume e hread ?_))
    refine fun m m' hm htop => .bind (hm.popView htop fun v v' m m' hm hv => ?_)
    cases hv with
    | mk value _ => exact hprint value m m' hm

end

/-! ## Programs -/

variable {m m' : Machine}

/-- What is left when the stack is cleared. -/
theorem Tied.clear (hm : C.Tied m m') :
    C.Tied { m with stack := [] } { m' with stack := [] } :=
  ⟨hm.envs, hm.held, hm.output, .nil, hm.log⟩

theorem both_clearing {α : Type} {act act' : Run α} {Q : α → α → Machine → Machine → Prop}
    (h : C.Both act act' m m' Q) : C.Both (clearing act) (clearing act') m m' Q := by
  simp only [Both, Paired, Ends, clearing, ExceptT.run, ExceptT.mk, StateT.run] at h ⊢
  generalize act m = p at h ⊢
  generalize act' m' = p' at h ⊢
  obtain ⟨r, t⟩ := p
  obtain ⟨r', t'⟩ := p'
  cases r with
  | ok a =>
    cases r' with
    | ok b => exact h
    | error f' => exact h.elim
  | error f =>
    cases r' with
    | ok b => cases f <;> exact h.elim
    | error f' =>
      obtain ⟨rfl, ht⟩ := h
      cases f with
      | error e => exact ⟨rfl, ht.clear⟩
      | crash c => exact ⟨rfl, ht⟩

/-- The nodes on top of the stacks are evaluated. -/
theorem both_evaluate {t t' : Term} {intent? : Option Intent}
    {Q : Unit → Unit → Machine → Machine → Prop}
    (h : C.Both (within t (t.eval intent?)) (within t' (t'.eval intent?)) m m' Q) :
    C.Both evaluate evaluate { m with stack := .pending t intent? :: m.stack }
      { m' with stack := .pending t' intent? :: m'.stack } Q := h

theorem Tied.statement {Q : Value → Value → Machine → Machine → Prop} (hm : C.Tied m m')
    {t : Term} (hg : t.GlobalsIn C.bond.global) (hQ : ∀ v t t', C.Tied t t' → Q v v t t') :
    C.Both (statement t) (statement (C.move t)) m m' Q := by
  have hvalue : C.Both (do
        evaluate
        return (← Run.popView).value.defined) (do
        evaluate
        return (← Run.popView).value.defined)
      { m with stack := .pending t none :: m.stack }
      { m' with stack := .pending (C.move t) none :: m'.stack }
      fun v w t t' => v = w ∧ C.Tied t t' := by
    refine .bind (both_evaluate (both_within t ((yields_eval t none hg m m' hm).mono ?_)))
    refine fun _ _ t t' ht => .bind (ht.1.popView ht.2 fun v v' t t' ht hv => ?_)
    cases hv with
    | mk value _ => exact ⟨rfl, ht⟩
  refine .bind (hm.ends_pushPending t none (.bind ((both_clearing hvalue).mono ?_)))
  rintro v _ t t' ⟨rfl, ht⟩
  have hlength : t'.stack.length = t.stack.length := ht.stack.length_eq.symm
  refine .bind ?_
  simp only [Both, Paired, ends_get, hlength]
  split
  · exact hQ v t t' ht
  · exact ⟨rfl, ht.clear⟩

theorem Tied.statements {Q : Value → Value → Machine → Machine → Prop} {ts : List Term} {v : Value}
    (hm : C.Tied m m') (hg : ∀ t ∈ ts, t.GlobalsIn C.bond.global)
    (hQ : ∀ v t t', C.Tied t t' → Q v v t t') :
    C.Both (statements ts v) (statements (ts.map C.move) v) m m' Q := by
  induction ts generalizing v m m' with
  | nil => exact hQ v m m' hm
  | cons t rest ih =>
    obtain ⟨ht, hrest⟩ := List.forall_mem_cons.1 hg
    exact .bind (hm.statement ht fun v u u' hu => ih hu hrest)

end Comparison

end PhpInterpreter
