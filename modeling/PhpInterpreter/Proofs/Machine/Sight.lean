import PhpInterpreter.Proofs.Machine.Settling

/-!
What expressions without an assignment see. They are settled, and leave a view of what lies in the
environment; the element or character that a subscript sees is the one under its key in the value
of its base.
-/

namespace PhpInterpreter

open Run

/-! ## Parts of a value -/

/-- The offset of a key in a string; texts count as zero. -/
def Key.offset : Key → Int
  | .int n => n
  | .str _ => 0

/-- Where a key leads in a string; negative offsets count from the end. -/
def Key.position (k : Key) (s : String) : Int :=
  if k.offset < 0 then k.offset + s.toList.length else k.offset

/-- The number of a key has too many digits to be told. -/
def Key.Unwritten (k : Key) : Prop :=
  Numeral.digitLimit < (decimalDigits k.offset.natAbs).length

theorem Key.unwritten_int_iff {n : Int} :
    Key.Unwritten (.int n) ↔ 10 ^ Numeral.digitLimit ≤ n.natAbs := by
  rw [Unwritten, Key.offset, decimalDigits, ← Nat.not_le,
    Nat.length_toDigits_le_iff (by decide) (by decide), Nat.not_lt]

theorem Key.unwritten_ten_pow (n : Nat) (hn : Numeral.digitLimit ≤ n) :
    Key.Unwritten (.int (10 ^ n : Nat)) := by
  rw [unwritten_int_iff, Int.natAbs_natCast]
  exact Nat.pow_le_pow_right (by decide) hn

/-- A one with five thousand noughts. -/
def farOffset : Int := (10 ^ 5000 : Nat)

theorem unwritten_farOffset : Key.Unwritten (.int farOffset) :=
  Key.unwritten_ten_pow 5000 (by decide)

theorem Key.unwritten_neg {n : Int} (h : Key.Unwritten (.int n)) : Key.Unwritten (.int (-n)) := by
  rwa [unwritten_int_iff, Int.natAbs_neg, ← unwritten_int_iff]

/-- A loud read stops with this fault if it cannot tell the number of the key. -/
def Fault.Untold (quiet : Bool) (k : Key) (f : Fault) : Prop :=
  quiet = false ∧ f = .crash .digitLimit ∧ k.Unwritten

/-- A remark on a key has a text, unless the number of the key cannot be told. -/
def Key.Tells (k : Key) (r : Except Crash Remark) : Prop :=
  (∃ x, r = .ok x ∧ ¬ k.Unwritten) ∨ r = .error .digitLimit ∧ k.Unwritten

theorem Key.tells_offset (k : Key) (f : String → Remark) :
    k.Tells ((integerText k.offset).map f) := by
  by_cases hk : k.Unwritten
  · have htext : integerText k.offset = .error .digitLimit := if_pos hk
    exact .inr ⟨by rw [htext]; rfl, hk⟩
  · have htext : integerText k.offset = .ok (decimalText k.offset) := if_neg hk
    exact .inl ⟨f (decimalText k.offset), by rw [htext]; rfl, hk⟩

theorem Key.tells_missing (k : Key) : k.Tells (Remark.missing k) := by
  cases k with
  | int n => exact Key.tells_offset (.int n) .missingOffset
  | str s =>
    have hzero : ¬ Numeral.digitLimit < (decimalDigits 0).length := by decide
    exact .inl ⟨.missingIndex s, rfl, hzero⟩

/-- A loud remark is made, or stops if its number cannot be told. -/
theorem Noting.ends_mention {quiet : Bool} {r : Except Crash Remark} {k : Key} (hr : k.Tells r)
    (rs : List Remark) :
    Ends (Noting.mention quiet r) rs (fun _ _ => quiet = true ∨ ¬ k.Unwritten) fun f _ =>
      f.Untold quiet k := by
  unfold Noting.mention
  cases quiet with
  | true => exact .inl rfl
  | false =>
    rcases hr with ⟨x, rfl, hk⟩ | ⟨rfl, hk⟩
    · exact .inr hk
    · exact ⟨rfl, rfl, hk⟩

namespace Value

/-- The character at a position of a string; undefined past the ends. -/
def characterAt (s : String) (position : Int) : Value :=
  match if 0 ≤ position then s.toList[position.toNat]? else none with
  | some c => .string c.toString
  | none => .undefined

/-- A character is found; past the ends none is, and telling so may stop. -/
theorem ends_charAt (quiet : Bool) (s : String) (k : Key) (rs : List Remark) :
    Ends (charAt quiet s k) rs (fun v _ => v = characterAt s (k.position s)) fun f _ =>
      f.Untold quiet k ∧ characterAt s (k.position s) = .undefined := by
  have hlast : ∀ (k : Key) (rs : List Remark),
      Ends (do
        match (if 0 ≤ (if k.offset < 0 then k.offset + s.toList.length else k.offset) then
          s.toList[(if k.offset < 0 then k.offset + s.toList.length else k.offset).toNat]?
            else none) with
        | some c => return string c.toString
        | none =>
          Noting.mention quiet ((integerText k.offset).map .missingCharacter)
          return undefined : Noting Value) rs
        (fun v _ => v = characterAt s (k.position s)) fun f _ =>
          f.Untold quiet k ∧ characterAt s (k.position s) = .undefined := by
    intro k rs
    unfold characterAt Key.position
    split
    · exact rfl
    · rw [ends_bind]
      exact (Noting.ends_mention (k.tells_offset _) rs).mono (fun _ _ _ => rfl)
        fun f _ hf => ⟨hf, rfl⟩
  cases k with
  | int n => exact hlast (.int n) rs
  | str t => exact hlast (.str t) _

/-- What lies under a key in a value. Characters can be refused. -/
def under (refused : Bool) (k : Key) : Value → Except Fatal Value
  | string s =>
    if refused then .error .referenceToCharacter else .ok (characterAt s (k.position s))
  | array t => .ok ((t.get? k).getD undefined)
  | object _ c => .error (.objectAsArray c)
  | _ => .ok undefined

@[simp] theorem under_defined (refused : Bool) (k : Key) (v : Value) :
    v.defined.under refused k = v.under refused k := by
  cases v <;> rfl

end Value

namespace Environment

variable {e : Environment} {l : Location} {k : Key}

theorem load_child (hl : l.char? = none) :
    e.load (l.child k) = match e.load l with
      | .array t => (t.get? k).getD .undefined
      | _ => .undefined := by
  cases hc : e.cell? l with
  | none =>
    have hcell : (e.scope? l.scope).bind (fun s => Assoc.get? l.slot s.cells) = none := hc
    simp [load, Location.child, hcell]
  | some v =>
    have hchild : e.cell? (l.child k) = some v := hc
    rw [load_eq hchild hl, load_eq hc hl, Location.child, Value.descend_append]
    cases v.descend l.path with
    | array t =>
      rw [Value.descend]
      dsimp only
      cases t.get? k with
      | none => rfl
      | some w =>
        dsimp only
        rw [Value.descend]
        rfl
    | _ => rfl

end Environment

/-- What the view shows is what lies at its home. -/
def View.Stands (e : Environment) (v : View) : Prop :=
  ∀ home, v.home? = some home → home.char? = none ∧ v.value.defined = (e.load home).defined

namespace View.Stands

variable {e : Environment} {v : View}

theorem fresh (x : Value) : Stands e (.fresh x) := nofun

theorem load {l : Location} (hl : l.char? = none) : Stands e ⟨e.load l, some l⟩ := by
  rintro _ ⟨⟩
  exact ⟨hl, rfl⟩

theorem defined (h : v.Stands e) : Stands e ⟨v.value.defined, v.home?⟩ := by
  intro home hhome
  obtain ⟨hwhole, hload⟩ := h home hhome
  refine ⟨hwhole, ?_⟩
  rw [← hload]
  cases v.value <;> rfl

theorem child {t : Table Value} {k : Key} {x : Value} (h : v.Stands e) (hv : v.value = .array t)
    (hk : t.get? k = some x) : Stands e ⟨x, v.home?.map (·.child k)⟩ := by
  intro home hhome
  obtain ⟨above, habove, rfl⟩ := Option.map_eq_some_iff.1 hhome
  obtain ⟨hwhole, hload⟩ := h above habove
  refine ⟨hwhole, ?_⟩
  have harray : e.load above = .array t := by
    rw [hv] at hload
    cases hl : e.load above with
    | array u => rw [hl] at hload; exact hload.symm
    | _ => rw [hl] at hload; cases hload
  rw [Environment.load_child hwhole, harray]
  dsimp only
  rw [hk]
  rfl

end View.Stands

/-! ## Steps that read -/

namespace Fault

/-- Whether the language itself defines the error. -/
def isFatal : Fault → Bool
  | error ⟨.fatal _, _⟩ => true
  | _ => false

@[simp] theorem isFatal_locate (f : Fault) (p : Place) : (f.locate p).isFatal = f.isFatal := by
  cases f with
  | crash c => rfl
  | error e =>
    obtain ⟨cause, place?⟩ := e
    simp only [locate, RunError.locate]
    split
    · rfl
    · cases cause <;> rfl

end Fault

namespace Run

variable {e : Environment} {h : Head} {act : Run Unit} {E : Fault → Prop} {base key : Term}
  {evalBase evalKey : Run Unit}

/-- The computation is settled and leaves a view of the environment. -/
abbrev Shows (e : Environment) (act : Run Unit) : Prop := Gives e act (·.Stands e) fun _ => True

theorem Settles.within {Q : Outcome Unit} (hact : Settles e act Q E)
    (hE : ∀ f p, E f → E (f.locate p)) (t : Term) : Settles e (within t act) Q E := by
  unfold Run.within
  split
  · exact Settles.located _ (hact.mono (fun _ _ _ _ _ hQ => hQ) fun f hf => hE f _ hf)
  · exact hact

theorem Shows.within (hact : Shows e act) (t : Term) : Shows e (within t act) :=
  Settles.within hact (fun _ _ _ => trivial) t

theorem finds_variableName (d : Datum) :
    Finds e (variableName d) (fun _ => True) fun _ => True := by
  obtain ⟨s, hs⟩ | ⟨e, he⟩ | ⟨b, hb⟩ := variableName_cases d
  · rw [hs]
    exact finds_pure trivial
  · rw [he]
    exact settles_throw trivial
  · rw [hb]
    exact settles_throw trivial

theorem finds_lookup (name : String) :
    Finds e (inScope (Scoped.lookup name none)) (fun l? => ∀ l, l? = some l → l.char? = none)
      fun f => ∃ b, f = .breach b := by
  refine settles_inScope ?_
  rw [Scoped.ends_lookup]
  refine ⟨fun _ => ⟨_, rfl⟩, fun s _ => ⟨fun _ => ⟨rfl, rfl, rfl, nofun⟩, fun slot _ => ?_⟩⟩
  refine ⟨fun _ => ⟨_, rfl⟩, fun o _ => ⟨rfl, rfl, rfl, ?_⟩⟩
  rintro _ ⟨⟩
  rfl

theorem finds_noted {α : Type} (line : Json) (quiet : Bool) (act : Noting α) :
    Finds e (noting line quiet act) (fun _ => True) fun _ => True :=
  finds_noting ((ends_trivial act []).mono (fun _ _ _ => trivial) fun _ _ _ => trivial)

theorem finds_remark (line : Json) (quiet : Bool) (r : Remark) :
    Finds e (noting line quiet (Noting.remark r)) (fun _ => True) E :=
  finds_noting (trivial : Ends (Noting.remark r) [] (fun _ _ => True) fun f _ => E f)

theorem finds_mention {quiet : Bool} {r : Except Crash Remark} {k : Key} (hr : k.Tells r)
    (line : Json) : Finds e (noting line quiet (Noting.mention quiet r))
      (fun _ => quiet = true ∨ ¬ k.Unwritten) (Fault.Untold quiet k) :=
  finds_noting (Noting.ends_mention hr [])

/-- A subscript sees what lies under its key. If nothing does, telling so may stop. -/
theorem finds_subscriptView {byref quiet : Bool} {b : View} {k : Key} (hb : b.Stands e) :
    Finds e (subscriptView h byref quiet b k)
      (fun v => v.Stands e ∧ ∃ x, b.value.under byref k = .ok x ∧ v.value.defined = x.defined)
      fun f => (f.isFatal ∧ ∃ c, b.value.under byref k = .error c) ∨
        f.Untold quiet k ∧ b.value.under byref k = .ok .undefined := by
  unfold subscriptView
  cases hv : b.value with
  | string s =>
    dsimp only
    split
    · rename_i hbyref
      exact settles_throw (.inl ⟨rfl, _, if_pos hbyref⟩)
    · rename_i hbyref
      refine Finds.bind (finds_noting ((Value.ends_charAt quiet s k []).mono ?_ ?_))
      · rintro _ _ rfl
        exact finds_pure ⟨.fresh _, _, if_neg hbyref, rfl⟩
      · rintro f _ ⟨hf, hmissing⟩
        exact .inr ⟨hf, (if_neg hbyref).trans (congrArg Except.ok hmissing)⟩
  | array t =>
    dsimp only
    cases hk : t.get? k with
    | some x =>
      refine finds_pure ⟨hb.child hv hk, x, ?_, rfl⟩
      rw [Value.under, hk]
      rfl
    | none =>
      have hmissing : (Value.array t).under byref k = .ok .undefined := by
        rw [Value.under, hk]
        rfl
      refine Finds.bind ((finds_mention k.tells_missing _).mono
        (fun _ _ _ => ?_) fun _ hf => .inr ⟨hf, hmissing⟩)
      exact finds_pure ⟨.fresh _, .undefined, hmissing, rfl⟩
  | object i c => exact settles_throw (.inl ⟨rfl, _, rfl⟩)
  | _ => exact finds_pure ⟨.fresh _, .undefined, rfl, rfl⟩

/-- Reading a subscript: its base, then its key, then what lies there. -/
theorem Gives.readSubscript {Q : Outcome Unit} {quiet : Bool}
    (habsent : base.isAbsent = true ∨ key.isAbsent = true → E (.breach .missingOperand))
    (hbase : Gives e (within base evalBase) (fun b => Gives e (within key evalKey) (fun k =>
      Settles e (do
        let k ← noting h.place.line quiet k.value.toKey
        pushView (← subscriptView h (h.byref || base.byref) quiet b k)) Q E) E) E) :
    Settles e (readSubscript h quiet base key evalBase evalKey) Q E := by
  unfold Run.readSubscript
  rw [pushPending_eq]
  split
  · exact settles_throw (habsent (.inr ‹_›))
  refine Gives.beneath (fun h => habsent (.inl h)) (hbase.mono (fun b _ hkey => ?_) fun _ hf => hf)
  rw [push_holding_resume]
  exact Gives.holding hkey

/-- A subscript of expressions that are settled is settled. -/
theorem Shows.readSubscript {quiet : Bool} (hbase : Shows e evalBase) (hkey : Shows e evalKey) :
    Shows e (readSubscript h quiet base key evalBase evalKey) := by
  refine Gives.readSubscript (fun _ => trivial) ((hbase.within base).mono (fun b _ hb => ?_)
    fun _ _ => trivial)
  refine (hkey.within key).mono (fun k _ _ => ?_) fun _ _ => trivial
  refine Finds.bind ((finds_noted _ _ _).mono (fun k _ _ => ?_) fun _ _ => trivial)
  refine Finds.bind ((finds_subscriptView hb).mono (fun v _ hv => ?_) fun _ _ => trivial)
  exact gives_pushView hv.1

/-- The left operand of `??` is read quietly. -/
def leftIntent : Operator BinaryOp → Option Intent
  | .known .coalesce => some .isset
  | _ => some .read

/-- A binary operator leaves what it makes, or what one of its operands sees. -/
theorem shows_binary {operator : Datum} {left right : Term} {evalLeft : Option Intent → Run Unit}
    {evalRight : Run Unit} (hleft : ∀ intent, intent ≠ .write → Shows e (evalLeft (some intent)))
    (hright : Shows e evalRight) :
    Shows e (binaryBody h operator left right evalLeft evalRight) := by
  unfold binaryBody
  rw [pushPending_eq]
  split
  · exact settles_throw trivial
  have hfirst : Shows e (evalLeft (leftIntent (Operator.ofDatum BinaryOp.ofSymbol? operator))) := by
    unfold leftIntent
    split
    · exact hleft .isset (by decide)
    · exact hleft .read (by decide)
  refine Gives.beneath (fun _ => trivial) ((hfirst.within left).mono (fun l _ hl => ?_)
    fun _ _ => trivial)
  split
  · exact ((stops_throw trivial).push _).settles
  · rw [push_resume]
    refine Gives.popView ((hright.within right).mono (fun _ _ _ => ?_) fun _ _ => trivial)
    exact settles_throw trivial
  · split
    · rw [push_pop]
      split
      · exact gives_pushView hl
      · exact gives_pushView (.fresh _)
    · rw [push_holding_resume]
      refine Gives.holding ((hright.within right).mono (fun r _ hr => ?_) fun _ _ => trivial)
      split
      · exact gives_pushView hr.defined
      · refine Finds.bind ((finds_noted _ _ _).mono (fun v _ _ => ?_) fun _ _ => trivial)
        exact gives_pushView (.fresh v)

theorem shows_unary {operator : Datum} {operand : Term} {evalOperand : Run Unit}
    (hoperand : Shows e evalOperand) : Shows e (unaryBody h operator operand evalOperand) := by
  refine Gives.operand (fun _ => trivial) fun _ => ?_
  refine (hoperand.within operand).mono (fun v _ _ => ?_) fun _ _ => trivial
  split
  · split
    · refine Finds.bind ((finds_noted _ _ _).mono (fun w _ _ => ?_) fun _ _ => trivial)
      exact gives_pushView (.fresh w)
    · exact settles_throw trivial
  · exact settles_throw trivial

/-- A variable is seen where its name leads. -/
theorem shows_variable {name : Datum} {intent : Intent} (hintent : intent ≠ .write) :
    Shows e (variableBody h name (some intent)) := by
  refine Finds.bind ((finds_variableName name).mono (fun s _ _ => ?_) fun _ _ => trivial)
  split
  · rename_i heq
    exact absurd (Option.some.inj heq) hintent
  · contradiction
  · refine Finds.bind ((finds_lookup s).mono (fun l? _ hl => ?_) fun _ _ => trivial)
    cases l? with
    | some l => exact Finds.bind (finds_view (gives_pushView (.load (hl l rfl))))
    | none =>
      refine Finds.bind ((finds_remark _ _ _).mono (fun _ _ _ => ?_) fun _ hf => hf)
      exact gives_pushView (.fresh _)

theorem finds_literalValue (d : Datum) :
    Finds e (literalValue h d) (fun _ => True) fun _ => True := by
  unfold literalValue
  split
  · split
    · exact finds_pure trivial
    · exact settles_throw trivial
  all_goals exact finds_pure trivial

theorem finds_listed (iterable : Bool) :
    Finds e (listed iterable) (fun _ => True) fun _ => True := by
  unfold listed
  split
  · exact finds_pure trivial
  · exact settles_throw trivial

theorem Settles.writable {Q : Outcome Unit} {intent : Intent} (hintent : intent ≠ .write)
    (hact : Settles e act Q E) : Settles e (do writable (some intent); act) Q E := by
  have hwritable : Run.writable (some intent) = pure () := if_neg (by simpa using hintent)
  rwa [hwritable, pure_bind]

end Run

/-! ## Expressions -/

open Run in
mutual

/-- An expression without an assignment is settled. -/
theorem Term.shows_eval (e : Environment) (t : Term) (intent : Intent) (hintent : intent ≠ .write)
    (ht : t.ReadOnly) : Shows e (t.eval (some intent)) := by
  have hread : Intent.read ≠ .write := by decide
  match t with
  | .absent | .foreign => exact settles_throw trivial
  | .literal h d =>
    refine Settles.writable hintent (Finds.bind ((finds_literalValue d).mono (fun v _ _ => ?_)
      fun _ hf => hf))
    exact gives_pushView (.fresh v)
  | .variable h name => exact shows_variable hintent
  | .array h iterable items =>
    refine Settles.writable hintent ?_
    refine Finds.bind ((finds_listed iterable).mono (fun _ _ _ => ?_) fun _ hf => hf)
    refine Finds.bind ((Term.finds_evalItems e items ht .empty).mono (fun t _ _ => ?_)
      fun _ hf => hf)
    exact gives_pushView (.fresh _)
  | .subscript h base key =>
    have hkey := Term.shows_eval e key .read hread ht.2
    match intent with
    | .write => contradiction
    | .read | .isset =>
      have hbase := fun i hi => Term.shows_eval e base i hi ht.1
      cases key with
      | absent => exact settles_throw trivial
      | _ => exact Shows.readSubscript (hbase _ (by decide)) hkey
  | .unary h op operand =>
    exact Settles.writable hintent (shows_unary (Term.shows_eval e operand .read hread ht))
  | .binary h op left right =>
    refine Settles.writable hintent (shows_binary (fun i hi => ?_) ?_)
    · exact Term.shows_eval e left i hi ht.1
    · exact Term.shows_eval e right .read hread ht.2
  | .program .. | .entry .. | .other _ => exact Settles.writable hintent (settles_throw trivial)

theorem Term.finds_evalItems (e : Environment) (items : List Term)
    (hitems : Term.ReadOnlyAll items) (table : Table Value) :
    Finds e (Term.evalItems items table) (fun _ => True) fun _ => True := by
  have hread : Intent.read ≠ .write := by decide
  match items with
  | [] => exact finds_pure trivial
  | item :: rest =>
    have hrest := Term.finds_evalItems e rest hitems.2
    have hitem := Term.shows_eval e item .read hread hitems.1
    cases item with
    | absent => exact hrest table
    | foreign => exact settles_throw trivial
    | entry h key value =>
      have hkey := Term.shows_eval e key .read hread hitems.1.1
      have hvalue := Term.shows_eval e value .read hread hitems.1.2
      have hlast : ∀ add : Value → Table Value, Finds e (do
          within value (value.eval (some .read))
          let v ← popView
          Term.evalItems rest (add v.value.defined)) (fun _ => True) fun _ => True := fun add =>
        Gives.popView ((hvalue.within value).mono (fun v _ _ => hrest _) fun _ hf => hf)
      rw [Term.evalItems.eq_def]
      dsimp only
      split
      · exact settles_throw trivial
      · rw [pushPending_eq]
        split
        · exact settles_throw trivial
        cases key with
        | absent => exact hlast table.append
        | _ =>
          refine Gives.beneath (fun _ => trivial) ((hkey.within _).mono (fun k _ _ => ?_)
            fun _ hf => hf)
          refine Finds.beneath ((finds_noted _ _ _).mono (fun k _ _ => ?_) fun _ hf => hf)
          exact hlast (table.set k)
    | _ =>
      rw [Term.evalItems.eq_def]
      dsimp only
      split
      · exact settles_throw trivial
      · refine Gives.operand (fun _ => trivial) fun _ => ?_
        exact (hitem.within _).mono (fun v _ _ => hrest _) fun _ hf => hf

end

end PhpInterpreter
