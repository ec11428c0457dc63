import PhpInterpreter.Proofs.Machine.Renumber
import PhpInterpreter.Proofs.Scope.Bond
import PhpInterpreter.Proofs.Value.Placeless

/-!
Two runs side by side, of a term and of the same term with other lines, in environments that
compare. They take the same steps: what they read, print and hold is the same, but for the cells it
comes from, and remarks and errors differ by their lines only. Every step of the machine has a rule
that carries this on.
-/

namespace PhpInterpreter

open Run

theorem Renumbering.fault_placeless (ν : Renumbering) {f : Fault} (h : f.Placeless) :
    ν.fault f = f := by
  match f, h with
  | .error ⟨cause, none⟩, _ => rfl
  | .crash c, _ => rfl

/-- Views of one value, from places that stand for each other. -/
inductive View.Alike (cells : Int → Int → Int → Int → Prop) : View → View → Prop
  | mk (value : Value) {home? home?' : Option Location}
      (h : Option.Rel (Location.Alike cells) home? home?') :
      Alike cells ⟨value, home?⟩ ⟨value, home?'⟩

theorem View.alike_fresh {cells : Int → Int → Int → Int → Prop} (v : Value) :
    (View.fresh v).Alike cells (.fresh v) := .mk v .none

/-- A store shows in both views or in none. -/
theorem View.Alike.follow {B : Bond} {v v' : View} {l l' : Location} (h : v.Alike B.cells v')
    (hl : l.Alike B.cells l') (w : Value) : (v.follow l w).Alike B.cells (v'.follow l' w) := by
  cases h with
  | mk value hhome =>
    cases hhome with
    | none => exact .mk value .none
    | some hhome =>
      have hsame := hhome
      cases hhome with
      | mk hcells path char? =>
        cases hl with
        | mk hcells' path' char?' =>
          simp only [View.follow, ne_eq, B.unique hcells hcells']
          split
          · exact .mk value (.some hsame)
          · split
            · exact .mk value .none
            · split
              · exact .mk _ (.some hsame)
              · exact .mk value (.some hsame)

/-- Items that differ in cells and in the lines of waiting nodes only. -/
inductive Item.Alike (cells : Int → Int → Int → Int → Prop) (ν : Renumbering) : Item → Item → Prop
  | value {v v' : View} (h : v.Alike cells v') : Alike cells ν (.value v) (.value v')
  | location {l? l?' : Option Location} (h : Option.Rel (Location.Alike cells) l? l?') :
      Alike cells ν (.location l?) (.location l?')
  | pending (t : Term) (intent? : Option Intent) :
      Alike cells ν (.pending t intent?) (.pending t intent?)
  | moved (t : Term) (intent? : Option Intent) :
      Alike cells ν (.pending t intent?) (.pending (t.mapPlace ν.place) intent?)

theorem Item.Alike.follow {B : Bond} {ν : Renumbering} {i i' : Item} {l l' : Location}
    (h : Alike B.cells ν i i') (hl : l.Alike B.cells l') (v : Value) :
    Alike B.cells ν (i.follow l v) (i'.follow l' v) := by
  cases h with
  | value h => exact .value (h.follow hl v)
  | location h => exact .location h
  | pending t intent? => exact .pending t intent?
  | moved t intent? => exact .moved t intent?

theorem Item.display_pending (t : Term) (intent? : Option Intent) :
    (Item.pending t intent?).display = match t.kind? with
      | none => .error .notANode
      | some kind =>
        .ok ("<pending " ++ kind ++ " " ++ ((intent?.map Intent.label).getD "-") ++ ">") := by
  cases t <;> rfl

/-- Only locations show the cells they lie in. -/
theorem Item.Alike.display {cells : Int → Int → Int → Int → Prop} {ν : Renumbering} {i i' : Item}
    (h : Alike cells ν i i') (hi : ∀ l, i ≠ .location (some l)) : i'.display = i.display := by
  cases h with
  | value h =>
    cases h with
    | mk value h => rfl
  | location h =>
    cases h with
    | none => rfl
    | some h => exact absurd rfl (hi _)
  | pending t intent? => rfl
  | moved t intent? => rw [Item.display_pending, Item.display_pending, Term.kind?_mapPlace]

/-- How the lines of two runs differ, and how their logs compare, whatever both add to them. -/
structure Transcript where
  lines : Renumbering
  logs : List Diagnostic → List Diagnostic → Prop
  logs_append : ∀ {log log' : List Diagnostic} (later : List Diagnostic), logs log log' →
    logs (log ++ later) (log' ++ later.map lines.remark)

/-- What both runs log comes after what each of them found. -/
def Transcript.after (lines : Renumbering) (before before' : List Diagnostic) : Transcript where
  lines := lines
  logs log log' := ∃ later, log = before ++ later ∧ log' = before' ++ later.map lines.remark
  logs_append more := by
    rintro ⟨later, rfl, rfl⟩
    exact ⟨later ++ more, by simp, by simp⟩

theorem Transcript.logs_after (lines : Renumbering) (before before' : List Diagnostic) :
    (after lines before before').logs before before' := ⟨[], by simp, by simp⟩

/-- What two runs are compared by: their environments, their outputs, whatever both print, and what
they log. -/
structure Comparison extends Transcript where
  bond : Bond
  outputs : String → String → Prop
  outputs_append : ∀ {s s' : String} (later : String), outputs s s' →
    outputs (s ++ later) (s' ++ later)

/-- Both runs have the same environment and print the same. -/
def Comparison.guarding (guard : Guard) (transcript : Transcript) : Comparison where
  toTranscript := transcript
  bond := guard.bond
  outputs s s' := s' = s
  outputs_append := by
    rintro s _ later rfl
    rfl

/-- Both runs found the same log. -/
def Comparison.sharing (guard : Guard) (lines : Renumbering) (before : List Diagnostic) :
    Comparison := .guarding guard (.after lines before before)

/-- Whether a node is evaluated to a place. -/
def Intent.locates : Option Intent → Bool
  | some .write => true
  | _ => false

namespace Comparison

variable {C : Comparison} {α β : Type} {m m' : Machine} {place : Bool}

/-- Machines of the two runs. -/
structure Tied (C : Comparison) (m m' : Machine) : Prop where
  envs : C.bond.envs m.env m'.env
  held : List.Forall₂ (View.Alike C.bond.cells) m.held m'.held
  output : C.outputs m.output m'.output
  stack : List.Forall₂ (Item.Alike C.bond.cells C.lines) m.stack m'.stack
  log : C.logs m.log m'.log

/-- Both computations return, with `Q`, or both stop, with the same fault but for its line. -/
def Both (C : Comparison) (act : Run α) (act' : Run β) (m m' : Machine)
    (Q : α → β → Machine → Machine → Prop) : Prop :=
  Paired act act' m m' Q fun f f' t t' => f' = C.lines.fault f ∧ C.Tied t t'

/-- A location is on top of the stack only where a place was asked for, and one that may be
written. -/
def Topped (C : Comparison) (place : Bool) (m : Machine) : Prop :=
  ∀ l, m.stack.head? = some (.location (some l)) →
    place = true ∧ C.bond.writable m.env l.scope l.slot

/-- A place in both runs that may be written. -/
structure Target (C : Comparison) (l l' : Location) (e : Environment) : Prop where
  alike : l.Alike C.bond.cells l'
  writable : C.bond.writable e l.scope l.slot

/-- Both runs have such a place, or none. -/
def Targets (C : Comparison) (l? l?' : Option Location) (e : Environment) : Prop :=
  Option.Rel (fun l l' => C.Target l l' e) l? l?'

/-- Both computations leave a result. -/
def Yields (C : Comparison) (place : Bool) (act act' : Run Unit) : Prop :=
  ∀ m m', C.Tied m m' → C.Both act act' m m' fun _ _ t t' => C.Tied t t' ∧ C.Topped place t

/-- Both computations return, with `P`. -/
def Gives (C : Comparison) (act : Run α) (act' : Run β) (P : α → β → Environment → Prop) : Prop :=
  ∀ m m', C.Tied m m' → C.Both act act' m m' fun a b t t' => C.Tied t t' ∧ P a b t.env

/-- The term with the lines of the other run. -/
def move (C : Comparison) (t : Term) : Term := t.mapPlace C.lines.place

@[simp] theorem isAbsent_move (t : Term) : (C.move t).isAbsent = t.isAbsent :=
  Term.isAbsent_mapPlace C.lines.place t

@[simp] theorem byref_move (t : Term) : (C.move t).byref = t.byref :=
  Term.byref_mapPlace C.lines.place t

variable {act : Run α} {act' : Run β} {Q : α → β → Machine → Machine → Prop}

/-- Both runs start from one machine. -/
theorem Tied.start {guard : Guard} {transcript : Transcript} (hm : guard.env m.env)
    (hlog : transcript.logs m.log m.log) : (guarding guard transcript).Tied m m where
  envs := ⟨rfl, hm⟩
  held := List.forall₂_same.2 fun v _ => .mk v.value (Guard.rel_sameCell.2 rfl)
  output := rfl
  stack := by
    refine List.forall₂_same.2 fun i _ => ?_
    cases i with
    | pending t intent? => exact .pending t intent?
    | value v => exact .value (.mk v.value (Guard.rel_sameCell.2 rfl))
    | location l? => exact .location (Guard.rel_sameCell.2 rfl)
  log := hlog

theorem Both.mono {Q' : α → β → Machine → Machine → Prop} (h : C.Both act act' m m' Q)
    (hQ : ∀ a b t t', Q a b t t' → Q' a b t t') : C.Both act act' m m' Q' :=
  Paired.mono h hQ fun _ _ _ _ h => h

theorem Both.bind {γ δ : Type} {f : α → Run γ} {f' : β → Run δ}
    {R : γ → δ → Machine → Machine → Prop}
    (h : C.Both act act' m m' fun a b t t' => C.Both (f a) (f' b) t t' R) :
    C.Both (act >>= f) (act' >>= f') m m' R := Paired.bind h

theorem both_pure {a : α} {b : β} (h : Q a b m m') :
    C.Both (pure a : Run α) (pure b : Run β) m m' Q := h

theorem Tied.throw {f : Fault} (hm : C.Tied m m') (hf : f.Placeless) :
    C.Both (throw f : Run α) (throw f : Run β) m m' Q := ⟨(C.lines.fault_placeless hf).symm, hm⟩

theorem Tied.fatal (hm : C.Tied m m') (e : Fatal) :
    C.Both (Run.fatal e : Run α) (Run.fatal e : Run β) m m' Q := ⟨rfl, hm⟩

theorem Tied.breach (hm : C.Tied m m') (b : Breach) :
    C.Both (Run.breach b : Run α) (Run.breach b : Run β) m m' Q := ⟨rfl, hm⟩

theorem Tied.crash (hm : C.Tied m m') (c : Crash) :
    C.Both (Run.crash c : Run α) (Run.crash c : Run β) m m' Q := ⟨rfl, hm⟩

theorem both_located (p : Place) (h : C.Both act act' m m' Q) :
    C.Both (located p act) (located (C.lines.place p) act') m m' Q := by
  simp only [Both, Paired, ends_located]
  refine Ends.mono h (fun _ _ h => h) fun f t h => Ends.mono h (fun _ _ h => h) ?_
  rintro f' t' ⟨rfl, ht⟩
  exact ⟨(C.lines.fault_locate p f).symm, ht⟩

theorem both_within {act act' : Run Unit} {Q : Unit → Unit → Machine → Machine → Prop} (t : Term)
    (h : C.Both act act' m m' Q) : C.Both (within t act) (within (C.move t) act') m m' Q := by
  unfold within
  rw [move, Term.head?_mapPlace]
  cases t.head? with
  | none => exact h
  | some head => exact both_located head.place h

/-! ## Remarks and the environment -/

theorem Tied.logged (hm : C.Tied m m') (line : Json) (quiet : Bool) (remarks : List Remark) :
    C.Tied (logged line quiet remarks m) (logged (C.lines.line line) quiet remarks m') := by
  refine ⟨hm.envs, hm.held, hm.output, hm.stack, ?_⟩
  cases quiet with
  | true => exact hm.log
  | false =>
    have hadd := C.logs_append (remarks.map (⟨·, line⟩)) hm.log
    rwa [List.map_map] at hadd

theorem Tied.noting {act : Noting α} {Q : α → α → Machine → Machine → Prop} (hm : C.Tied m m')
    (hact : Placeless act) (line : Json) (quiet : Bool)
    (hQ : ∀ a t t', C.Tied t t' → t.env = m.env → Q a a t t') :
    C.Both (noting line quiet act) (noting (C.lines.line line) quiet act) m m' Q := by
  have hfault := hact []
  simp only [Both, Paired, ends_noting]
  simp only [Ends] at hfault ⊢
  generalize act.run.run [] = p at hfault ⊢
  obtain ⟨r, remarks⟩ := p
  have htied := hm.logged line quiet remarks
  cases r with
  | ok a => exact hQ a _ _ htied rfl
  | error f => exact ⟨(C.lines.fault_placeless hfault).symm, htied⟩

theorem Tied.remark {Q : Unit → Unit → Machine → Machine → Prop} (hm : C.Tied m m') (line : Json)
    (quiet : Bool) (r : Remark) (hQ : ∀ t t', C.Tied t t' → t.env = m.env → Q () () t t') :
    C.Both (Run.noting line quiet (Noting.remark r))
      (Run.noting (C.lines.line line) quiet (Noting.remark r)) m m' Q :=
  hm.noting (.remark r) line quiet fun _ t t' ht henv => hQ t t' ht henv

theorem Tied.mention {Q : Unit → Unit → Machine → Machine → Prop} (hm : C.Tied m m') (line : Json)
    (quiet : Bool) (r : Except Crash Remark)
    (hQ : ∀ t t', C.Tied t t' → t.env = m.env → Q () () t t') :
    C.Both (Run.noting line quiet (Noting.mention quiet r))
      (Run.noting (C.lines.line line) quiet (Noting.mention quiet r)) m m' Q :=
  hm.noting (.mention quiet r) line quiet fun _ t t' ht henv => hQ t t' ht henv

/-- An operation that does alike in both environments. -/
theorem Tied.inScope {act : Scoped α} {act' : Scoped β} {P : α → β → Environment → Prop}
    (hm : C.Tied m m') (hact : Scoped.Concur C.bond.envs act act' m.env m'.env P)
    (hQ : ∀ a b t t', C.Tied t t' → P a b t.env → Q a b t t') :
    C.Both (inScope act) (inScope act') m m' Q := by
  have htied : ∀ e e', C.bond.envs e e' → C.Tied { m with env := e } { m' with env := e' } :=
    fun _ _ he => ⟨he, hm.held, hm.output, hm.stack, hm.log⟩
  simp only [Both, Paired, ends_inScope]
  refine Ends.mono hact (fun a e h => Ends.mono h (fun b e' h => ?_) fun _ _ h => h) fun f e h =>
    Ends.mono h (fun _ _ h => h) fun f' e' h => ?_
  · exact hQ a b _ _ (htied e e' h.1) h.2
  · exact ⟨congrArg Fault.breach h.1, htied e e' h.2⟩

theorem Tied.declare {Q : Location → Location → Machine → Machine → Prop} (hm : C.Tied m m')
    (name : String)
    (hQ : ∀ l l' t t', C.Tied t t' → C.Target l l' t.env → Q l l' t t') :
    C.Both (Run.inScope (Scoped.declare name none)) (Run.inScope (Scoped.declare name none)) m m'
      Q :=
  hm.inScope (C.bond.declare name hm.envs) fun l l' t t' ht hl => hQ l l' t t' ht ⟨hl.1, hl.2⟩

theorem Tied.lookup {Q : Option Location → Option Location → Machine → Machine → Prop}
    (hm : C.Tied m m') (name : String)
    (hQ : ∀ l? l?' t t', C.Tied t t' → Option.Rel (Location.Alike C.bond.cells) l? l?' →
      Q l? l?' t t') :
    C.Both (Run.inScope (Scoped.lookup name none)) (Run.inScope (Scoped.lookup name none)) m m'
      Q :=
  hm.inScope (C.bond.lookup name hm.envs) hQ

/-- An operation whose result does not matter. -/
theorem Tied.change {act : Scoped α} {act' : Scoped β} (hm : C.Tied m m')
    (hact : Scoped.Concur C.bond.envs act act' m.env m'.env fun _ _ _ => True)
    (hQ : ∀ a b t t', C.Tied t t' → Q a b t t') :
    C.Both (Run.inScope act) (Run.inScope act') m m' Q :=
  hm.inScope hact fun a b t t' ht _ => hQ a b t t' ht

theorem Tied.store {Q : Unit → Unit → Machine → Machine → Prop} {l l' : Location}
    (hm : C.Tied m m') (v : Value) (hl : C.Target l l' m.env)
    (hQ : ∀ t t', C.Tied t t' → C.Target l l' t.env → Q () () t t') :
    C.Both (store l v) (store l' v) m m' Q := by
  refine .bind (hm.inScope (C.bond.store v hm.envs hl.alike hl.writable) fun _ _ t t' ht hw => ?_)
  refine hQ _ _ ⟨ht.envs, ?_, ht.output, ?_, ht.log⟩ ⟨hl.alike, hw⟩
  · exact List.forall₂_map_left_iff.2 (List.forall₂_map_right_iff.2
      (ht.held.imp fun w w' hw => hw.follow hl.alike v))
  · exact List.forall₂_map_left_iff.2 (List.forall₂_map_right_iff.2
      (ht.stack.imp fun i i' hi => hi.follow hl.alike v))

theorem Tied.view {Q : View → View → Machine → Machine → Prop} {l l' : Location} (hm : C.Tied m m')
    (hl : l.Alike C.bond.cells l') (hQ : ∀ v v', v.Alike C.bond.cells v' → Q v v' m m') :
    C.Both (view l) (view l') m m' Q := by
  simp only [Both, Paired, ends_view, C.bond.load hm.envs hl]
  exact hQ _ _ (.mk _ (.some hl))

theorem Tied.load {Q : Value → Value → Machine → Machine → Prop} {l l' : Location}
    (hm : C.Tied m m') (hl : l.Alike C.bond.cells l') (hQ : ∀ v, Q v v m m') :
    C.Both (load l) (load l') m m' Q := by
  simp only [Both, Paired, ends_load, C.bond.load hm.envs hl]
  exact hQ _

theorem Tied.print {Q : Unit → Unit → Machine → Machine → Prop} (hm : C.Tied m m') (s : String)
    (hQ : ∀ t t', C.Tied t t' → Q () () t t') : C.Both (print s) (print s) m m' Q := by
  simp only [Both, Paired, ends_print]
  exact hQ _ _ ⟨hm.envs, hm.held, C.outputs_append s hm.output, hm.stack, hm.log⟩

/-! ## The stack -/

theorem Tied.push {i i' : Item} (hm : C.Tied m m') (hi : i.Alike C.bond.cells C.lines i') :
    C.Tied { m with stack := i :: m.stack } { m' with stack := i' :: m'.stack } :=
  ⟨hm.envs, hm.held, hm.output, .cons hi hm.stack, hm.log⟩

theorem Tied.pushView {Q : Unit → Unit → Machine → Machine → Prop} {v v' : View}
    (hm : C.Tied m m') (hv : v.Alike C.bond.cells v')
    (hQ : ∀ t t', C.Tied t t' ∧ C.Topped place t → Q () () t t') :
    C.Both (pushView v) (pushView v') m m' Q := by
  simp only [Both, Paired, ends_pushView]
  exact hQ _ _ ⟨hm.push (.value hv), by simp [Topped]⟩

theorem Tied.pushLocation {Q : Unit → Unit → Machine → Machine → Prop} {l? l?' : Option Location}
    (hm : C.Tied m m') (hl : C.Targets l? l?' m.env)
    (hQ : ∀ t t', C.Tied t t' ∧ C.Topped true t → Q () () t t') :
    C.Both (pushLocation l?) (pushLocation l?') m m' Q := by
  simp only [Both, Paired, ends_pushLocation]
  cases hl with
  | none => exact hQ _ _ ⟨hm.push (.location .none), by simp [Topped]⟩
  | some hl =>
    refine hQ _ _ ⟨hm.push (.location (.some hl.alike)), fun l h => ⟨rfl, ?_⟩⟩
    obtain ⟨rfl⟩ := h
    exact hl.writable

theorem Tied.push_pending (hm : C.Tied m m') (t : Term) (intent? : Option Intent) :
    C.Tied { m with stack := .pending t intent? :: m.stack }
      { m' with stack := .pending (C.move t) intent? :: m'.stack } :=
  hm.push (.moved t intent?)

theorem Tied.ends_pushPending {Q : Unit → Unit → Machine → Machine → Prop} (hm : C.Tied m m')
    (t : Term) (intent? : Option Intent)
    (hQ : Q () () { m with stack := .pending t intent? :: m.stack }
      { m' with stack := .pending (C.move t) intent? :: m'.stack }) :
    C.Both (Run.pushPending t intent?) (Run.pushPending (C.move t) intent?) m m' Q := by
  simp only [Both, Paired, Run.ends_pushPending, isAbsent_move]
  split
  · exact ⟨rfl, hm⟩
  · exact hQ

theorem Tied.pushPending {Q : Unit → Unit → Machine → Machine → Prop} (hm : C.Tied m m')
    (t : Term) (intent? : Option Intent) (hQ : ∀ t t', C.Tied t t' → Q () () t t') :
    C.Both (Run.pushPending t intent?) (Run.pushPending (C.move t) intent?) m m' Q :=
  hm.ends_pushPending t intent? (hQ _ _ (hm.push_pending t intent?))

theorem Tied.pop {Q : Item → Item → Machine → Machine → Prop} (hm : C.Tied m m')
    (hQ : ∀ i i' t t', C.Tied t t' → i.Alike C.bond.cells C.lines i' →
      m.stack.head? = some i → t.env = m.env → Q i i' t t') : C.Both pop pop m m' Q := by
  obtain ⟨env, stack, held, output, log⟩ := m
  obtain ⟨env', stack', held', output', log'⟩ := m'
  have hstack := hm.stack
  cases hstack with
  | nil => exact ⟨rfl, hm⟩
  | cons hi hrest =>
    exact hQ _ _ _ _ ⟨hm.envs, hm.held, hm.output, hrest, hm.log⟩ hi rfl rfl

theorem Tied.shown {i i' : Item} {Q : String → String → Machine → Machine → Prop}
    (hm : C.Tied m m') (hi : i.Alike C.bond.cells C.lines i') (hshow : ∀ l, i ≠ .location (some l))
    (hQ : ∀ s, Q s s m m') : C.Both (shown i) (shown i') m m' Q := by
  unfold Run.shown
  rw [hi.display hshow]
  split
  · exact hQ _
  · exact hm.crash _

/-- No place was asked for, so there is none on top to be shown with its cell. -/
theorem Tied.popView {Q : View → View → Machine → Machine → Prop} (hm : C.Tied m m')
    (htop : C.Topped false m)
    (hQ : ∀ v v' t t', C.Tied t t' → v.Alike C.bond.cells v' → Q v v' t t') :
    C.Both popView popView m m' Q := by
  refine .bind (hm.pop fun i i' t t' ht hi hhead _ => ?_)
  have hshow : ∀ l, i ≠ .location (some l) := by
    rintro l rfl
    exact Bool.noConfusion (htop l hhead).1
  have hshown := ht.shown hi hshow (Q := fun s s' t t' => s = s' ∧ C.Tied t t') fun s => ⟨rfl, ht⟩
  have hstop : C.Both (α := View) (β := View) (do Run.breach (.notAValue (← Run.shown i)))
      (do Run.breach (.notAValue (← Run.shown i'))) t t' Q := by
    refine .bind (hshown.mono ?_)
    rintro s _ t t' ⟨rfl, ht⟩
    exact ht.breach _
  cases hi with
  | value hv => exact hQ _ _ t t' ht hv
  | location h => exact hstop
  | pending u intent? => exact hstop
  | moved u intent? => exact hstop

theorem Tied.popLocation {Q : Option Location → Option Location → Machine → Machine → Prop}
    (hm : C.Tied m m') (htop : C.Topped place m)
    (hQ : ∀ l? l?' t t', C.Tied t t' → C.Targets l? l?' t.env → Q l? l?' t t') :
    C.Both popLocation popLocation m m' Q := by
  refine .bind (hm.pop fun i i' t t' ht hi hhead henv => ?_)
  cases hi with
  | location hl =>
    refine hQ _ _ t t' ht ?_
    cases hl with
    | none => exact .none
    | some hl => exact .some ⟨hl, henv ▸ (htop _ hhead).2⟩
  | value hv => exact .bind (ht.shown (.value hv) nofun fun s => ht.breach _)
  | pending u intent? => exact .bind (ht.shown (.pending u intent?) nofun fun s => ht.breach _)
  | moved u intent? => exact .bind (ht.shown (.moved u intent?) nofun fun s => ht.breach _)

theorem Tied.resume {act act' : Run Unit} {Q : Unit → Unit → Machine → Machine → Prop}
    (hm : C.Tied m m') (t : Term) (hact : C.Yields place act act')
    (hQ : ∀ t t', C.Tied t t' → C.Topped place t → Q () () t t') :
    C.Both (resume (within t act)) (resume (within (C.move t) act')) m m' Q := by
  refine .bind (hm.pop fun i i' u u' hu _ _ _ => both_within t ?_)
  exact (hact u u' hu).mono fun _ _ t t' ht => hQ t t' ht.1 ht.2

theorem yields_resume {act act' : Run Unit} (t : Term) (hact : C.Yields place act act') :
    C.Yields place (resume (within t act)) (resume (within (C.move t) act')) :=
  fun _ _ hm => hm.resume t hact fun _ _ ht htop => ⟨ht, htop⟩

/-- A value may stand where a place was asked for. -/
theorem Yields.value {act act' : Run Unit} (hact : C.Yields false act act') :
    C.Yields place act act' := fun m m' hm =>
  (hact m m' hm).mono fun _ _ _ _ ht => ⟨ht.1, fun l hl => Bool.noConfusion (ht.2 l hl).1⟩

/-- The held operands are views of one value, before and after. -/
theorem Tied.holding {act act' : Run Unit} {Q : View → View → Machine → Machine → Prop}
    {v v' : View} (hm : C.Tied m m') (hv : v.Alike C.bond.cells v') (hact : C.Yields place act act')
    (hQ : ∀ w w' t t', C.Tied t t' → C.Topped place t → w.Alike C.bond.cells w' → Q w w' t t') :
    C.Both (holding v act) (holding v' act') m m' Q := by
  have hmore : C.Tied { m with held := v :: m.held } { m' with held := v' :: m'.held } :=
    ⟨hm.envs, .cons hv hm.held, hm.output, hm.stack, hm.log⟩
  have h := hact _ _ hmore
  simp only [Both, Paired, Ends, Run.holding, ExceptT.run, ExceptT.mk, StateT.run] at h ⊢
  generalize act { m with held := v :: m.held } = p at h ⊢
  generalize act' { m' with held := v' :: m'.held } = p' at h ⊢
  obtain ⟨r, env, stack, held, output, log⟩ := p
  obtain ⟨r', env', stack', held', output', log'⟩ := p'
  cases r with
  | ok a =>
    cases r' with
    | error f' => exact h.elim
    | ok b =>
      obtain ⟨ht, htop⟩ := h
      have hheld := ht.held
      cases hheld with
      | nil => exact hQ v v' _ _ ht htop hv
      | cons hw hrest =>
        exact hQ _ _ _ _ ⟨ht.envs, hrest, ht.output, ht.stack, ht.log⟩ htop hw
  | error f =>
    cases r' with
    | ok b => exact h.elim
    | error f' =>
      obtain ⟨hf, ht⟩ := h
      have hheld := ht.held
      cases hheld with
      | nil => exact ⟨hf, ht⟩
      | cons hw hrest => exact ⟨hf, ht.envs, hrest, ht.output, ht.stack, ht.log⟩

end Comparison

end PhpInterpreter
