import PhpInterpreter.Proofs.Machine.Agreement
import PhpInterpreter.Proofs.Machine.Peek

/-!
Reading a node quietly, to see whether it is set, beside reading it aloud. Along the base of
subscripts the two runs differ in what they log; everything else is evaluated alike. So they end
alike, and what is logged quietly is logged aloud too, in the same order, unless the loud run stops
because it cannot tell a number it has to remark on.
-/

namespace PhpInterpreter

open Run

/-! ## Lines that stay -/

namespace Renumbering

theorem place_same : same.place = id := rfl

theorem remark_same : same.remark = id := rfl

theorem fault_same (f : Fault) : same.fault f = f := by
  cases f with
  | error e => simp [fault, place_same]
  | crash c => rfl

end Renumbering

mutual

theorem Node.mapPlace_id : ∀ n : Node, n.mapPlace id = n
  | .mk kind fields line column => by rw [Node.mapPlace, Node.mapPlaces_id fields, id]

theorem Datum.mapPlace_id : ∀ d : Datum, d.mapPlace id = d
  | .scalar v => by rw [Datum.mapPlace]
  | .list items => by rw [Datum.mapPlace, Datum.mapPlaces_id items]
  | .dict members => by rw [Datum.mapPlace]
  | .node n => by rw [Datum.mapPlace, Node.mapPlace_id n]

theorem Datum.mapPlaces_id : ∀ ds : List Datum, Datum.mapPlaces id ds = ds
  | [] => rfl
  | d :: rest => by rw [Datum.mapPlaces, Datum.mapPlace_id d, Datum.mapPlaces_id rest]

theorem Node.mapPlaces_id : ∀ fields : List (String × Datum), Node.mapPlaces id fields = fields
  | [] => rfl
  | (name, d) :: rest => by rw [Node.mapPlaces, Datum.mapPlace_id d, Node.mapPlaces_id rest]

end

theorem Head.mapPlace_id (h : Head) : h.mapPlace id = h := rfl

mutual

theorem Term.mapPlace_id : ∀ t : Term, t.mapPlace id = t
  | .absent | .foreign => by rw [Term.mapPlace]
  | .program h _ ts | .echo h _ ts | .global h _ ts | .unset h _ ts | .array h _ ts => by
    rw [Term.mapPlace, Term.mapPlaces_id ts, h.mapPlace_id]
  | .statement h e => by rw [Term.mapPlace, Term.mapPlace_id e, h.mapPlace_id]
  | .literal h d | .variable h d => by rw [Term.mapPlace, d.mapPlace_id, h.mapPlace_id]
  | .entry h a b | .subscript h a b => by
    rw [Term.mapPlace, Term.mapPlace_id a, Term.mapPlace_id b, h.mapPlace_id]
  | .unary h op e => by rw [Term.mapPlace, Term.mapPlace_id e, op.mapPlace_id, h.mapPlace_id]
  | .binary h op a b | .assign h op a b => by
    rw [Term.mapPlace, Term.mapPlace_id a, Term.mapPlace_id b, op.mapPlace_id, h.mapPlace_id]
  | .other h => by rw [Term.mapPlace, h.mapPlace_id]

theorem Term.mapPlaces_id : ∀ ts : List Term, Term.mapPlaces id ts = ts
  | [] => rfl
  | t :: rest => by rw [Term.mapPlaces, Term.mapPlace_id t, Term.mapPlaces_id rest]

end

theorem View.Alike.eq {v v' : View} (h : v.Alike Guard.sameCell v') : v = v' := by
  cases h with
  | mk value h => rw [Guard.rel_sameCell.1 h]

theorem View.eq_of_forall₂_alike {vs vs' : List View}
    (h : List.Forall₂ (View.Alike Guard.sameCell) vs vs') : vs = vs' := by
  have hsame := h.imp fun v v' (hv : View.Alike Guard.sameCell v v') => hv.eq
  exact List.forall₂_eq_eq_eq ▸ hsame

theorem Item.Alike.eq {i i' : Item} (h : Alike Guard.sameCell .same i i') : i = i' := by
  cases h with
  | value h => rw [h.eq]
  | location h => rw [Guard.rel_sameCell.1 h]
  | pending t intent? => rfl
  | moved t intent? => rw [Renumbering.place_same, Term.mapPlace_id]

theorem Item.eq_of_forall₂_alike {is is' : List Item}
    (h : List.Forall₂ (Item.Alike Guard.sameCell .same) is is') : is = is' := by
  have hsame := h.imp fun i i' (hi : Item.Alike Guard.sameCell .same i i') => hi.eq
  exact List.forall₂_eq_eq_eq ▸ hsame

mutual

theorem Term.globalsIn_true : ∀ t : Term, t.GlobalsIn fun _ => True
  | .absent | .foreign | .literal .. | .variable .. | .unset .. | .other _ => trivial
  | .global _ _ ts => by
    intro t _
    cases t with
    | «variable» h name => exact fun _ _ => trivial
    | _ => trivial
  | .program _ _ ts | .echo _ _ ts | .array _ _ ts => Term.globalsInAll_true ts
  | .statement _ e | .unary _ _ e => Term.globalsIn_true e
  | .entry _ a b | .subscript _ a b | .binary _ _ a b | .assign _ _ a b =>
    ⟨Term.globalsIn_true a, Term.globalsIn_true b⟩

theorem Term.globalsInAll_true : ∀ ts : List Term, Term.GlobalsInAll (fun _ => True) ts
  | [] => trivial
  | t :: rest => ⟨Term.globalsIn_true t, Term.globalsInAll_true rest⟩

end

/-! ## The quieter run -/

/-- The second run adds less to the log, in the same order. -/
def Transcript.hushed (before : List Diagnostic) : Transcript where
  lines := .same
  logs log log' := ∃ said heard, log = before ++ said ∧ log' = before ++ heard ∧ heard.Sublist said
  logs_append more := by
    rintro ⟨said, heard, rfl, rfl, hsub⟩
    refine ⟨said ++ more, heard ++ more, by simp, ?_, hsub.append (.refl more)⟩
    rw [Renumbering.remark_same, List.map_id, List.append_assoc]

def Comparison.hushing (before : List Diagnostic) : Comparison := .guarding .none (.hushed before)

/-- For all nodes but variables and subscripts it is the same. -/
theorem Term.eval_isset (t : Term) (hvariable : ∀ h name, t ≠ .variable h name)
    (hsubscript : ∀ h base key, t ≠ .subscript h base key) :
    t.eval (some .isset) = t.eval (some .read) := by
  cases t with
  | «variable» h name => exact absurd rfl (hvariable h name)
  | subscript h base key => exact absurd rfl (hsubscript h base key)
  | _ => rfl

namespace Comparison

variable {α : Type} {before : List Diagnostic} {m m' : Machine} {h : Head} {base key : Term}
  {place : Bool}

theorem move_hushing (t : Term) : (hushing before).move t = t := t.mapPlace_id

theorem yields_self (t : Term) (intent? : Option Intent) :
    (hushing before).Yields (Intent.locates intent?) (t.eval intent?) (t.eval intent?) := by
  have hmoved := yields_eval (C := hushing before) t intent? t.globalsIn_true
  rwa [move_hushing] at hmoved

theorem Tied.hush (hm : (hushing before).Tied m m') (line : Json) (remarks : List Remark) :
    (hushing before).Tied (Run.logged line false remarks m) (Run.logged line true remarks m') := by
  obtain ⟨said, heard, hlog, hlog', hsub⟩ := hm.log
  refine ⟨hm.envs, hm.held, hm.output, hm.stack, said ++ remarks.map (⟨·, line⟩), heard,
    ?_, hlog', hsub.trans (List.sublist_append_left ..)⟩
  simp [Run.logged, hlog]

theorem Tied.hushed {act : Noting α} {Q : α → α → Machine → Machine → Prop}
    (hm : (hushing before).Tied m m') (line : Json)
    (hQ : ∀ a t t', (hushing before).Tied t t' → Q a a t t') :
    (hushing before).Both (Run.noting line false act) (Run.noting line true act) m m' Q := by
  simp only [Both, Paired, ends_noting]
  simp only [Ends]
  generalize act.run.run [] = p
  obtain ⟨r, remarks⟩ := p
  cases r with
  | ok a => exact hQ a _ _ (hm.hush line remarks)
  | error f => exact ⟨(Renumbering.fault_same f).symm, hm.hush line remarks⟩

/-- Both computations return, with `Q`, or both stop with the same fault; or the loud one stops at a
number that cannot be told. -/
def Hushed (before : List Diagnostic) (loud quiet : Run α) (m m' : Machine)
    (Q : α → α → Machine → Machine → Prop) : Prop :=
  (hushing before).Both loud quiet m m' Q ∨
    Ends loud m (fun _ _ => False) fun f _ => f = .crash .digitLimit

/-- What stops the loud run stops what comes after, too. -/
theorem Hushed.bind {β : Type} {loud quiet : Run α} {f g : α → Run β}
    {R : β → β → Machine → Machine → Prop}
    (h : Hushed before loud quiet m m' fun a b t t' => Hushed before (f a) (g b) t t' R) :
    Hushed before (loud >>= f) (quiet >>= g) m m' R := by
  rcases h with hboth | hstop
  · rcases paired_iff.1 hboth with ⟨a, b, t, t', hr, hr', hrest | hstop⟩ | hstops
    · exact .inl (Both.bind (paired_iff.2 (.inl ⟨a, b, t, t', hr, hr', hrest⟩)))
    · refine .inr ?_
      rw [ends_bind]
      simp only [Ends, hr]
      exact hstop
    · exact .inl (Both.bind (paired_iff.2 (.inr hstops)))
  · refine .inr ?_
    rw [ends_bind]
    exact hstop.mono (fun _ _ hnone => hnone.elim) fun _ _ hf => hf

theorem Hushed.mono {loud quiet : Run α} {Q Q' : α → α → Machine → Machine → Prop}
    (h : Hushed before loud quiet m m' Q) (hQ : ∀ a b t t', Q a b t t' → Q' a b t t') :
    Hushed before loud quiet m m' Q' :=
  h.imp_left fun hboth => hboth.mono hQ

theorem Hushed.within {loud quiet : Run Unit} {Q : Unit → Unit → Machine → Machine → Prop}
    (t : Term) (h : Hushed before loud quiet m m' Q) :
    Hushed before (Run.within t loud) (Run.within t quiet) m m' Q := by
  refine h.imp (fun hboth => ?_) fun hstop => ?_
  · have hwithin := both_within t hboth
    rwa [move_hushing] at hwithin
  · unfold Run.within
    split
    · rw [ends_located]
      refine hstop.mono (fun _ _ hnone => hnone) ?_
      rintro _ _ rfl
      rfl
    · exact hstop

/-- Both computations come to the same, unless the loud one stops. -/
theorem Tied.hushed_noting {loud quiet : Noting α} {a : α} {Q : α → α → Machine → Machine → Prop}
    (hm : (hushing before).Tied m m') (line : Json)
    (hloud : Ends loud [] (fun b _ => b = a) fun f _ => f = .crash .digitLimit)
    (hquiet : Ends quiet [] (fun b _ => b = a) fun _ _ => False)
    (hQ : ∀ t t', (hushing before).Tied t t' → Q a a t t') :
    Hushed before (Run.noting line false loud) (Run.noting line true quiet) m m' Q := by
  obtain ⟨_, remarks', hrun', rfl⟩ := hquiet.returns
  unfold Ends at hloud
  rcases hrun : loud.run.run [] with ⟨r, remarks⟩
  rw [hrun] at hloud
  cases r with
  | ok b =>
    obtain rfl : b = _ := hloud
    refine .inl ?_
    simp only [Both, Paired, ends_noting]
    simp only [Ends, hrun, hrun']
    exact hQ _ _ (hm.hush line remarks)
  | error f =>
    refine .inr ?_
    rw [ends_noting]
    simpa only [Ends, hrun] using hloud

theorem yields_hushed_variable {name : Datum} :
    (hushing before).Yields place (variableBody h name (some .read))
      (variableBody h name (some .isset)) := by
  intro m m' hm
  have hname := hm.variableName name (Q := fun s s' t t' => s = s' ∧ (hushing before).Tied t t')
    fun s _ => ⟨rfl, hm⟩
  rw [Run.variableName_mapPlace] at hname
  refine .bind (hname.mono ?_)
  rintro s _ m m' ⟨rfl, hm⟩
  refine .bind (hm.lookup s fun l? l?' m m' hm hl => ?_)
  cases hl with
  | some hl => exact hm.view_pushed hl
  | none => exact .bind (hm.hushed h.place.line fun _ m m' hm => hm.pushValue .undefined)

theorem Tied.hushed_subscriptView {byref : Bool} {b b' : View} {k : Key}
    {Q : View → View → Machine → Machine → Prop} (hm : (hushing before).Tied m m')
    (hb : b.Alike Guard.sameCell b')
    (hQ : ∀ w t t', (hushing before).Tied t t' → Q w w t t') :
    Hushed before (Run.subscriptView h byref false b k) (Run.subscriptView h byref true b' k) m m'
      Q := by
  obtain rfl := hb.eq
  unfold Run.subscriptView
  split
  · rename_i s _
    split
    · exact .inl (hm.fatal _)
    · refine .bind (hm.hushed_noting _ ((Value.ends_charAt false s k []).mono (fun _ _ hc => hc)
        fun _ _ hf => hf.1.2.1) ((Value.ends_charAt true s k []).mono (fun _ _ hc => hc)
          fun _ _ hf => Bool.noConfusion hf.1.1) fun t t' ht => ?_)
      exact .inl (hQ _ t t' ht)
  · split
    · exact .inl (hQ _ m m' hm)
    · refine .bind (hm.hushed_noting (a := ()) _ ((Noting.ends_mention k.tells_missing []).mono
        (fun _ _ _ => rfl) fun _ _ hf => hf.2.1) ((Noting.ends_mention k.tells_missing []).mono
          (fun _ _ _ => rfl) fun _ _ hf => Bool.noConfusion hf.1) fun t t' ht => ?_)
      exact .inl (hQ _ t t' ht)
  · exact .inl (hm.fatal _)
  · exact .inl (hQ _ m m' hm)

/-- Only the base is read quietly; the key is read aloud in both runs. -/
theorem hushed_subscript {loud quiet evalKey : Run Unit} (hm : (hushing before).Tied m m')
    (hbase : ∀ m m', (hushing before).Tied m m' → Hushed before loud quiet m m' fun _ _ t t' =>
      (hushing before).Tied t t' ∧ (hushing before).Topped false t)
    (hkey : (hushing before).Yields false evalKey evalKey) :
    Hushed before (readSubscript h false base key loud evalKey)
      (readSubscript h true base key quiet evalKey) m m' fun _ _ t t' =>
        (hushing before).Tied t t' ∧ (hushing before).Topped false t := by
  have hresume := yields_resume key hkey
  rw [move_hushing] at hresume
  have hpush := hm.pushPending key (some .read) (Q := fun _ _ t t' => (hushing before).Tied t t')
    fun _ _ ht => ht
  rw [move_hushing] at hpush
  unfold readSubscript
  refine .bind (.inl (hpush.mono fun _ _ m m' hm => ?_))
  rw [Run.pushPending_resume, Run.pushPending_resume]
  split
  · exact .inl (hm.breach _)
  · refine .bind (((hbase m m' hm).within base).mono fun _ _ m m' hm => ?_)
    refine .bind (.inl (hm.1.popView hm.2 fun b b' m m' hm hb => ?_))
    refine .bind (.inl (hm.holding hb hresume fun b b' m m' hm htop hb => ?_))
    refine .bind (.inl (hm.popView htop fun k k' m m' hm hk => ?_))
    obtain rfl := View.Alike.eq hk
    refine .bind (.inl (hm.hushed _ fun k m m' hm => .bind (hm.hushed_subscriptView hb ?_)))
    exact fun w m m' hm =>
      .inl (hm.pushView (.mk w.value (Guard.rel_sameCell.2 rfl)) fun _ _ ht => ht)

/-- By recursion along the bases of subscripts. -/
theorem hushed_eval : ∀ (t : Term) (m m' : Machine), (hushing before).Tied m m' →
    Hushed before (t.eval (some .read)) (t.eval (some .isset)) m m' fun _ _ t t' =>
      (hushing before).Tied t t' ∧ (hushing before).Topped false t
  | .variable h name, m, m', hm => .inl (yields_hushed_variable m m' hm)
  | .subscript h base key, m, m', hm => by
    have hbase := hushed_eval base
    cases key with
    | absent => exact .inl (yields_fatal _ m m' hm)
    | _ => exact hushed_subscript hm hbase (yields_self _ (some .read))
  | .absent, m, m', hm | .foreign, m, m', hm | .program .., m, m', hm | .statement .., m, m', hm
  | .echo .., m, m', hm | .global .., m, m', hm | .unset .., m, m', hm | .literal .., m, m', hm
  | .array .., m, m', hm | .entry .., m, m', hm | .unary .., m, m', hm | .binary .., m, m', hm
  | .assign .., m, m', hm | .other _, m, m', hm => by
    rw [Term.eval_isset _ (fun _ _ heq => by cases heq) (fun _ _ _ heq => by cases heq)]
    exact .inl (yields_self _ _ m m' hm)

/-- Machines of the two runs are one machine with two logs. -/
theorem Tied.hushing_eq (hm : (hushing before).Tied m m') :
    ∃ said heard, m = { m with log := before ++ said } ∧ m' = { m with log := before ++ heard } ∧
      heard.Sublist said := by
  obtain ⟨said, heard, hlog, hlog', hsub⟩ := hm.log
  obtain ⟨env, stack, held, output, log⟩ := m
  obtain ⟨env', stack', held', output', log'⟩ := m'
  have hstack : stack = stack' := Item.eq_of_forall₂_alike hm.stack
  have hheld : held = held' := View.eq_of_forall₂_alike hm.held
  obtain rfl : env' = env := hm.envs.1
  obtain rfl : output' = output := hm.output
  subst hstack hheld hlog hlog'
  exact ⟨said, heard, rfl, rfl, hsub⟩

/-- Two runs that return alike or stop alike have one outcome, but for the logs. -/
theorem Both.hushed {loud quiet : Run Unit} (h : (hushing before).Both loud quiet m m'
      fun _ _ t t' => (hushing before).Tied t t') :
    ∃ (r : Except Fault Unit) (t : Machine) (said heard : List Diagnostic),
      loud.outcome m = (r, { t with log := before ++ said }) ∧
      quiet.outcome m' = (r, { t with log := before ++ heard }) ∧ heard.Sublist said := by
  have hpair : ∀ (r : Except Fault Unit) (t t' : Machine), (hushing before).Tied t t' →
      ∃ (r' : Except Fault Unit) (u : Machine) (said heard : List Diagnostic),
        (r, t) = (r', { u with log := before ++ said }) ∧
        (r, t') = (r', { u with log := before ++ heard }) ∧ heard.Sublist said := by
    intro r t t' ht
    obtain ⟨said, heard, hlog, hlog', hsub⟩ := ht.hushing_eq
    exact ⟨r, t, said, heard, congrArg (Prod.mk r) hlog, congrArg (Prod.mk r) hlog', hsub⟩
  rcases paired_iff.1 h with ⟨a, b, t, t', hr, hr', ht⟩ | ⟨f, f', t, t', hr, hr', rfl, ht⟩
  · rw [Run.outcome, Run.outcome, hr, hr']
    exact hpair _ t t' ht
  · rw [Run.outcome, Run.outcome, hr, hr',
      show (hushing before).lines.fault f = f from Renumbering.fault_same f]
    exact hpair _ t t' ht

end Comparison

/-- Evaluating a tree to read it and evaluating it to see whether it is set end alike: with the same
item or the same error, in machines that differ in their logs only, and the log of the second is
what the first logs with some remarks left out. The first may stop earlier, but only by a crash at a
number of too many digits. -/
theorem Node.evaluate_quietly (n : Node) (m : Machine) :
    (∃ (r : Except Fault Unit) (t : Machine) (said heard : List Diagnostic),
      evaluate.outcome { m with stack := .pending n.toTerm (some .read) :: m.stack } =
        (r, { t with log := m.log ++ said }) ∧
      evaluate.outcome { m with stack := .pending n.toTerm (some .isset) :: m.stack } =
        (r, { t with log := m.log ++ heard }) ∧
      heard.Sublist said) ∨
    (evaluate.outcome { m with stack := .pending n.toTerm (some .read) :: m.stack }).1 =
      .error (.crash .digitLimit) := by
  have hstart : (Comparison.hushing m.log).Tied m m :=
    .start trivial ⟨[], [], by simp, by simp, .refl []⟩
  rcases (Comparison.hushed_eval n.toTerm m m hstart).within n.toTerm with hboth | hstop
  · exact .inl (hboth.mono fun _ _ _ _ ht => ht.1).hushed
  · right
    rcases hrun : (within n.toTerm (n.toTerm.eval (some .read))).outcome m with ⟨a | f, t⟩
    · obtain rfl := hstop.of_error hrun
      exact congrArg Prod.fst hrun
    · exact (hstop.of_ok hrun).elim

/-- The node `[][k]`, for a number. -/
def elementNode (k : Int) : Node :=
  .mk "offsetlookup"
    [("what", .node (.mk "array" [("items", .list [])] default none)),
      ("offset", .node (.mk "number" [("value", .scalar (.number (.int k)))] default none))]
    default none

/-- Nothing lies under a key in the empty array. Aloud, the crash comes before null is left if the
number of the key cannot be told. -/
theorem Node.evaluate_elementNode {k : Int} (hk : Key.Unwritten (.int k)) (m : Machine) :
    (evaluate.outcome { m with
      stack := .pending (elementNode k).toTerm (some .read) :: m.stack }).1 =
        .error (.crash .digitLimit) ∧
    evaluate.outcome { m with stack := .pending (elementNode k).toTerm (some .isset) :: m.stack } =
      (.ok (), { m with stack := .value (.fresh .null) :: m.stack }) := by
  refine ⟨?_, rfl⟩
  have harray : Returns m.env (within (.array ⟨"array", ⟨default, none⟩, false⟩ true [])
      ((Term.array ⟨"array", ⟨default, none⟩, false⟩ true []).eval (some .read))) ()
      [.value (.fresh (.array .empty))] m.env [] := returns_pushView _
  have hnumber : Returns m.env
      (within (.literal ⟨"number", ⟨default, none⟩, false⟩ (.scalar (.number (.int k))))
        ((Term.literal ⟨"number", ⟨default, none⟩, false⟩ (.scalar (.number (.int k)))).eval
          (some .read))) () [.value (.fresh (.int k))] m.env [] := returns_pushView _
  have hstops : Stops m.env ((elementNode k).toTerm.eval (some .read)) (· = .crash .digitLimit) :=
    stops_subscript_untold rfl rfl (gives_iff.2 (.inl ⟨_, harray, rfl⟩))
      (gives_iff.2 (.inl ⟨_, hnumber, rfl⟩)) rfl hk
  obtain ⟨_, _, hrun, rfl⟩ := hstops m rfl
  have hlocated : evaluate.outcome { m with
      stack := .pending (elementNode k).toTerm (some .read) :: m.stack } =
        (located ⟨default, none⟩ ((elementNode k).toTerm.eval (some .read))).outcome m := rfl
  rw [hlocated, outcome_located, hrun]
  rfl

end PhpInterpreter
