import PhpInterpreter.Proofs.Machine.Agreement
import PhpInterpreter.Proofs.Machine.Failure

/-!
Computations that evaluate no node know nothing of places: what they stop with has none. So the
place of an error is that of a node which was being evaluated, or of a level that was resolved.
-/

namespace PhpInterpreter

namespace Run

variable {α β : Type} {h : Head}

/-- Wherever it is run, the computation stops with faults without a place only. -/
def Unplaced (act : Run α) : Prop :=
  ∀ m : Machine, Ends act m (fun _ _ => True) fun f _ => f.Placeless

theorem unplaced_pure (a : α) : Unplaced (pure a : Run α) := fun _ => trivial

theorem unplaced_fatal (e : Fatal) : Unplaced (fatal e : Run α) := fun _ => rfl

theorem unplaced_breach (b : Breach) : Unplaced (breach b : Run α) := fun _ => rfl

theorem unplaced_crash (c : Crash) : Unplaced (crash c : Run α) := fun _ => trivial

theorem Unplaced.bind {act : Run α} {f : α → Run β} (hact : Unplaced act)
    (hf : ∀ a, Unplaced (f a)) : Unplaced (act >>= f) := by
  intro m
  rw [ends_bind]
  exact (hact m).mono (fun a t _ => hf a t) fun _ _ h => h

/-! ## The stack and the log -/

theorem unplaced_push (i : Item) : Unplaced (push i) := fun _ => trivial

theorem unplaced_pop : Unplaced pop := by
  intro m
  simp only [pop, ends_bind, ends_get]
  split
  · exact rfl
  · trivial

theorem unplaced_shown (i : Item) : Unplaced (shown i) := by
  unfold shown
  split
  · exact unplaced_pure _
  · exact unplaced_crash _

theorem unplaced_popView : Unplaced popView := by
  refine unplaced_pop.bind fun i => ?_
  cases i with
  | value v => exact unplaced_pure v
  | _ => exact (unplaced_shown _).bind fun _ => unplaced_breach _

theorem unplaced_popLocation : Unplaced popLocation := by
  refine unplaced_pop.bind fun i => ?_
  cases i with
  | location l? => exact unplaced_pure l?
  | _ => exact (unplaced_shown _).bind fun _ => unplaced_breach _

theorem unplaced_noting {act : Noting α} (hact : Placeless act) (line : Json) (quiet : Bool) :
    Unplaced (noting line quiet act) := by
  intro m
  rw [ends_noting]
  exact (hact []).mono (fun _ _ _ => trivial) fun _ _ hf => hf

theorem unplaced_inScope (act : Scoped α) : Unplaced (inScope act) := by
  intro m
  rw [ends_inScope]
  exact (ends_trivial act m.env).mono (fun _ _ _ => trivial) fun _ _ _ => rfl

theorem unplaced_print (s : String) : Unplaced (print s) := fun _ => trivial

/-! ## Places -/

theorem unplaced_load (l : Location) : Unplaced (load l) := fun _ => trivial

theorem unplaced_view (l : Location) : Unplaced (view l) := fun _ => trivial

theorem unplaced_store (l : Location) (v : Value) : Unplaced (store l v) :=
  (unplaced_inScope _).bind fun _ _ => trivial

theorem unplaced_loadOrNull (l? : Option Location) : Unplaced (loadOrNull l?) := by
  cases l? with
  | none => exact unplaced_pure _
  | some l => exact unplaced_load l

theorem unplaced_element (t : Table Value) (l : Location) (key? : Option Key) :
    Unplaced (element t l key?) := by
  unfold element
  split
  · exact (unplaced_store _ _).bind fun _ => unplaced_pure _
  · dsimp only
    split
    · exact (unplaced_store _ _).bind fun _ => unplaced_pure _
    · exact unplaced_pure _

theorem unplaced_character (level : Level) (l : Location) (s : String) :
    Unplaced (character level l s) := by
  have hlast : ∀ offset position : Int, Unplaced (do
      if position < 0 then
        noting level.place.line false
          (Noting.mention false ((integerText offset).map .offsetBeforeStart))
      return l.atChar position) := by
    intro offset position
    split
    · exact (unplaced_noting (.mention _ _) _ _).bind fun _ => unplaced_pure _
    · exact unplaced_pure _
  unfold character
  split
  · exact unplaced_fatal _
  · split
    · exact unplaced_fatal _
    · rename_i key _
      cases key with
      | int n => exact (unplaced_pure n).bind fun offset => hlast offset _
      | str k =>
        refine (unplaced_noting (.remark _) _ _).bind fun _ => ?_
        exact (unplaced_pure 0).bind fun offset => hlast offset _

theorem unplaced_descend (level : Level) (l? : Option Location) : Unplaced (descend level l?) := by
  unfold descend
  split
  · exact unplaced_pure _
  · split
    · exact unplaced_fatal _
    · refine (unplaced_load _).bind fun v => ?_
      cases v with
      | undefined | null =>
        refine (unplaced_store _ _).bind fun _ => ?_
        exact (unplaced_element _ _ _).bind fun _ => unplaced_pure _
      | array t => exact (unplaced_element _ _ _).bind fun _ => unplaced_pure _
      | bool _ | number _ => exact (unplaced_noting (.remark _) _ _).bind fun _ => unplaced_pure _
      | string s => exact (unplaced_character _ _ _).bind fun _ => unplaced_pure _
      | object _ c => exact unplaced_fatal _

theorem unplaced_writeCharacter (line : Json) (l : Location) (offset : Int) (v : Value) :
    Unplaced (writeCharacter line l offset v) := by
  unfold writeCharacter
  split
  · exact unplaced_pure _
  · refine (unplaced_load _).bind fun w => ?_
    cases w with
    | string s =>
      refine (unplaced_noting (.toText v) _ _).bind fun text => ?_
      have hlast : ∀ c : Char, Unplaced (do
          if maxInt < offset then crash .outOfRange
          else
            store l.container (.string (String.ofList (writeAt s.toList offset.toNat c)))
            return .string c.toString : Run Value) := by
        intro c
        split
        · exact unplaced_crash _
        · exact (unplaced_store _ _).bind fun _ => unplaced_pure _
      split
      · exact unplaced_fatal _
      · rename_i c more _
        dsimp only
        split
        · exact (unplaced_noting (.remark _) _ _).bind fun _ => hlast c
        · exact hlast c
    | _ => exact unplaced_breach _

theorem unplaced_writeTo (line : Json) (l? : Option Location) (v : Value) :
    Unplaced (writeTo line l? v) := by
  unfold writeTo
  split
  · exact unplaced_pure _
  · split
    · exact (unplaced_writeCharacter _ _ _ _).bind fun _ => unplaced_pure _
    · exact (unplaced_store _ _).bind fun _ => unplaced_pure _

/-! ## Names and bodies -/

theorem unplaced_variableName (d : Datum) : Unplaced (variableName d) := by
  obtain ⟨s, hs⟩ | ⟨e, he⟩ | ⟨b, hb⟩ := variableName_cases d
  · rw [hs]
    exact unplaced_pure s
  · rw [he]
    exact unplaced_fatal e
  · rw [hb]
    exact unplaced_breach b

theorem unplaced_variableBody (name : Datum) (intent? : Option Intent) :
    Unplaced (variableBody h name intent?) := by
  refine (unplaced_variableName name).bind fun s => ?_
  split
  · exact (unplaced_inScope _).bind fun _ => unplaced_push _
  · refine (unplaced_inScope _).bind fun l => ?_
    exact (unplaced_view l).bind fun _ => unplaced_push _
  · refine (unplaced_inScope _).bind fun l? => ?_
    cases l? with
    | some l => exact (unplaced_view l).bind fun _ => unplaced_push _
    | none => exact (unplaced_noting (.remark _) _ _).bind fun _ => unplaced_push _

theorem unplaced_subscriptView (byref quiet : Bool) (base : View) (key : Key) :
    Unplaced (subscriptView h byref quiet base key) := by
  unfold subscriptView
  split
  · split
    · exact unplaced_fatal _
    · exact (unplaced_noting (.charAt _ _ _) _ _).bind fun _ => unplaced_pure _
  · split
    · exact unplaced_pure _
    · exact (unplaced_noting (.mention _ _) _ _).bind fun _ => unplaced_pure _
  · exact unplaced_fatal _
  · exact unplaced_pure _

theorem unplaced_literalValue (d : Datum) : Unplaced (literalValue h d) := by
  unfold literalValue
  split
  · cases hd : d.toNumber with
    | ok n => exact unplaced_pure _
    | error f => exact fun _ => Comparison.placeless_toNumber hd
  · exact unplaced_pure _
  · exact unplaced_pure _
  · exact unplaced_pure _

theorem unplaced_peekRoot (t : Term) : Unplaced (peekRoot t) := by
  fun_induction peekRoot t with
  | case1 _ base _ ih => exact ih
  | case2 _ name =>
    refine (unplaced_variableName name).bind fun s => (unplaced_inScope _).bind fun l? => ?_
    cases l? with
    | some l => exact unplaced_view l
    | none => exact unplaced_pure _
  | case3 => exact unplaced_fatal _

theorem unplaced_peekAll (levels : List Level) (v : View) : Unplaced (peekAll levels v) := by
  induction levels generalizing v with
  | nil => exact unplaced_pure v
  | cons level rest ih =>
    unfold peekAll
    split
    · exact unplaced_fatal _
    · split
      · split
        · exact ih _
        · exact ih _
      · exact (unplaced_noting (.charAt _ _ _) _ _).bind fun c => ih _
      · exact unplaced_fatal _
      · exact ih _

theorem unplaced_standing (op : BinaryOp) (target : Term) (levels : List Level) :
    Unplaced (standing op target levels) := by
  unfold standing
  split
  · refine (unplaced_peekRoot target).bind fun root => ?_
    exact (unplaced_peekAll levels root).bind fun _ => unplaced_pure _
  · exact unplaced_pure _

theorem unplaced_globalNames (targets : List Term) : Unplaced (globalNames targets) := by
  fun_induction globalNames targets with
  | case1 => exact unplaced_pure _
  | case2 _ name rest ih =>
    exact (unplaced_variableName name).bind fun _ => (unplaced_inScope _).bind fun _ => ih
  | case3 => exact unplaced_fatal _

theorem unplaced_unsetNames (targets : List Term) : Unplaced (unsetNames targets) := by
  fun_induction unsetNames targets with
  | case1 => exact unplaced_pure _
  | case2 _ name rest ih =>
    exact (unplaced_variableName name).bind fun _ => (unplaced_inScope _).bind fun _ => ih
  | case3 => exact unplaced_fatal _

theorem unplaced_attach (name : Datum) (l? : Option Location) : Unplaced (attach name l?) := by
  unfold attach
  split
  · exact unplaced_fatal _
  · split
    · exact unplaced_fatal _
    · split
      · exact unplaced_fatal _
      · refine (unplaced_variableName name).bind fun s => (unplaced_inScope _).bind fun _ => ?_
        exact (unplaced_view _).bind fun _ => unplaced_push _

theorem unplaced_listed (iterable : Bool) : Unplaced (listed iterable) := by
  unfold listed
  split
  · exact unplaced_pure _
  · exact unplaced_crash _

end Run

end PhpInterpreter
