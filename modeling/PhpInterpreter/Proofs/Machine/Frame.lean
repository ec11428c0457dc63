import PhpInterpreter.Proofs.Machine.View

/-!
Runs of the evaluator within a contract. `K.At m₀ frame n m` says that evaluation came from `m₀` to
`m`: the environment changed as evaluation may change it, the stack is that of `m₀`, its views
following the writes, under the nodes of `frame` that still wait, and `n` operands are held over
those of `m₀`, which follow the writes too. Every step of the machine has a rule that carries it on.
-/

namespace PhpInterpreter

namespace Contract

open Environment Run

variable {K : Contract} {e e' : Environment} {ws : List Write} {l : Location} {v : Value}

/-! ## Environments, views and places -/

/-- An environment within the contract. -/
structure Env (K : Contract) (e : Environment) : Prop where
  cells : K.Cells e
  consistent : K.strict → e.Consistent

/-- A value of the contract can be stored at the location. -/
structure Admits (K : Contract) (e : Environment) (l : Location) : Prop where
  keys : ¬ K.strict → ∀ k ∈ l.path, K.key k
  leads : K.strict → ∀ c, e.cell? l = some c → K.Leads c l.path

theorem Admits.leads_cell (h : K.Admits e l) {c : Value} (hc : e.cell? l = some c) :
    K.Leads c l.path := by
  by_cases hs : K.strict
  · exact h.leads hs c hc
  · exact leads_of_keys (h.keys hs) c

theorem admits_of_whole (h : l.path = []) : K.Admits e l where
  keys _ := by simp [h]
  leads _ _ _ := by simp [Leads, h]

theorem Env.act {a : Action} (h : K.Env e) (ha : a.Own e) : K.Env (a.apply e) where
  cells := by
    refine Every.apply h.cells K.null ?_
    rintro l v rfl
    exact ha
  consistent hs := ((h.consistent hs).apply ((h.consistent hs).legal_own ha)).consistent

theorem Env.store (h : K.Env e) (hl : K.Admits e l) (hv : K.value v)
    (hr : (Scoped.store l v).run.run e = (.ok (), e')) : K.Env e' where
  cells := (h.cells.store hv fun _ hc => hl.leads_cell hc).of_ok hr
  consistent hs := ((Scoped.ends_store_consistent (h.consistent hs) v).of_ok hr).consistent

/-- A view of a value that can be read. -/
structure Seen (K : Contract) (e : Environment) (v : View) : Prop where
  read : K.read v.value
  current : K.strict → v.Current e

theorem seen_fresh {x : Value} (h : K.read x) (e : Environment) : K.Seen e (.fresh x) :=
  ⟨h, fun _ => View.current_fresh e x⟩

theorem Env.seen_load (h : K.Env e) (l : Location) : K.Seen e ⟨e.load l, some l⟩ :=
  ⟨h.cells.read_load l, fun hs => View.current_load (h.consistent hs) l⟩

theorem Seen.defined {view : View} (h : K.Seen e view) :
    K.Seen e ⟨view.value.defined, view.home?⟩ :=
  ⟨.inr (value_defined h.read), fun hs => (h.current hs).defined⟩

theorem Seen.child {view : View} {t : Table Value} {k : Key} {x : Value} (h : K.Seen e view)
    (ht : view.value = .array t) (hx : t.get? k = some x) :
    K.Seen e ⟨x, view.home?.map (·.child k)⟩ :=
  ⟨read_get? (value_array (ht ▸ h.read)) hx, fun hs => (h.current hs).child ht hx⟩

theorem Seen.own {view : View} {a : Action} (h : K.Seen e view) (he : K.Env e) (ha : a.Own e) :
    K.Seen (a.apply e) view :=
  ⟨h.read, fun hs => (h.current hs).own (he.consistent hs) ha⟩

/-- What is written below the home of a view is written into the view under the same keys. -/
theorem Seen.follow {view : View} (h : K.Seen e view) (he : K.Env e) (hl : K.Admits e l)
    (hv : K.value v) (hr : (Scoped.store l v).run.run e = (.ok (), e')) :
    K.Seen e' (view.follow l v) := by
  refine ⟨?_, fun hs => (h.current hs).follow (he.consistent hs) hr⟩
  rcases View.follow_cases l v view with ⟨hsame, -⟩ | ⟨hsame, -⟩ | ⟨home, k, rest, hhome, hslot,
    hpath, hsame⟩
  · rw [hsame]
    exact h.read
  · rw [hsame]
    exact h.read
  · rw [hsame]
    cases hset : view.value.setAt? (k :: rest) v with
    | none => exact h.read
    | some w =>
      refine .inr (value_setAt? h.read ?_ hv hset)
      by_cases hs : K.strict
      · obtain ⟨-, old, new, hold, -⟩ := exists_of_store hr
        have hleads := hl.leads hs old hold
        rw [hpath] at hleads
        refine hleads.below fun t ht => ?_
        obtain ⟨-, hevery⟩ := h.current hs home t hhome ht
        exact (he.consistent hs).toLinked.every_iff.1 hevery l.scope old (hslot ▸ hold)
      · refine leads_of_keys (fun x hx => hl.keys hs x ?_) _
        rw [hpath]
        exact List.mem_append_right _ hx

/-- A location that was just resolved: a whole slot has a name in the current scope. -/
structure Place (K : Contract) (e : Environment) (l : Location) : Prop extends K.Admits e l where
  named : l.path = [] → l.char? = none → ∃ source, e.Names e.current source l
  valid : K.strict → e.Valid l

/-- What evaluation leaves: a place, or a value. -/
def Result (K : Contract) (place : Bool) (e : Environment) : Item → Prop
  | .value v => place = false ∧ K.Seen e v
  | .location l? => place = true ∧ ∀ l, l? = some l → K.Place e l
  | .pending .. => False

/-! ## Evaluation under way -/

/-- Nodes that wait on the stack, with what they are evaluated for. -/
abbrev Frame : Type := List (Term × Option Intent)

def Frame.items (frame : Frame) : List Item := frame.map fun p => .pending p.1 p.2

structure At (K : Contract) (m₀ : Machine) (frame : Frame) (n : Nat) (m : Machine) : Prop where
  along : ∃ ws vs, Effect m₀.env ws m.env ∧ (¬ K.strict → K.Writes ws) ∧
    m.stack = frame.items ++ m₀.stack.map (Item.followAll ws) ∧
    m.held = vs ++ m₀.held.map (View.followAll ws) ∧ vs.length = n ∧ ∀ v ∈ vs, K.Seen m.env v
  env : K.Env m.env

theorem At.follows {m₀ m : Machine} {frame : Frame} {n : Nat} (h : K.At m₀ frame n m) :
    ∃ ws, Effect m₀.env ws m.env ∧ (¬ K.strict → K.Writes ws) ∧
      m.stack = frame.items ++ m₀.stack.map (Item.followAll ws) := by
  obtain ⟨ws, vs, he, hw, hstack, -⟩ := h.along
  exact ⟨ws, he, hw, hstack⟩

/-- Evaluation from `m₀` stopped with an allowed fault. -/
def Stop (K : Contract) (m₀ : Machine) (f : Fault) (m : Machine) : Prop :=
  K.fault f ∧ K.Env m.env ∧ ∃ ws, Effect m₀.env ws m.env ∧ (¬ K.strict → K.Writes ws)

/-- Evaluation from `m₀` left one result on the frame. -/
def Has (K : Contract) (m₀ : Machine) (frame : Frame) (n : Nat) (place : Bool) (m : Machine) :
    Prop :=
  ∃ item rest, m.stack = item :: rest ∧ K.At m₀ frame n { m with stack := rest } ∧
    K.Result place m.env item

/-- The computation leaves one result, a place or a value, wherever it is run. -/
def Yields (K : Contract) (act : Run Unit) (place : Bool) : Prop :=
  ∀ m₀ frame n m, K.At m₀ frame n m → Ends act m (fun _ => K.Has m₀ frame n place) (K.Stop m₀)

section

variable {α : Type} {m₀ m : Machine} {frame : Frame} {n : Nat} {place : Bool}
  {R : α → Machine → Prop}

theorem At.start (h : K.Env m.env) : K.At m [] 0 m where
  along := ⟨[], [], .refl _, fun _ => nofun, by simp [Frame.items, Item.followAll_nil],
    by simp [View.followAll_nil], rfl, nofun⟩
  env := h

theorem At.stop {f : Fault} (h : K.At m₀ frame n m) (hf : K.fault f) : K.Stop m₀ f m := by
  obtain ⟨ws, he, hw, -⟩ := h.follows
  exact ⟨hf, h.env, ws, he, hw⟩

theorem Stop.locate {f : Fault} (h : K.Stop m₀ f m) (p : PhpInterpreter.Place) :
    K.Stop m₀ (f.locate p) m := ⟨K.locate p h.1, h.2⟩

theorem At.fatal (h : K.At m₀ frame n m) (f : Fatal) : Ends (Run.fatal f : Run α) m R (K.Stop m₀) :=
  h.stop (K.fatal f)

/-- What only an incomplete tree or an inconsistent environment brings about. -/
theorem At.breach (h : K.At m₀ frame n m) (hs : ¬ K.strict) (b : Breach) :
    Ends (Run.breach b : Run α) m R (K.Stop m₀) :=
  h.stop (K.lenient hs _)

theorem At.crash (h : K.At m₀ frame n m) (hs : ¬ K.strict) (c : Crash) :
    Ends (Run.crash c : Run α) m R (K.Stop m₀) :=
  h.stop (K.lenient hs _)

theorem ends_located_stop {act : Run α} (p : PhpInterpreter.Place)
    (h : Ends act m R (K.Stop m₀)) : Ends (located p act) m R (K.Stop m₀) := by
  rw [ends_located]
  exact h.mono (fun _ _ h => h) fun _ _ h => h.locate p

theorem ends_within_stop {act : Run Unit} {R : Unit → Machine → Prop} (t : Term)
    (h : Ends act m R (K.Stop m₀)) : Ends (within t act) m R (K.Stop m₀) := by
  unfold within
  split
  · exact ends_located_stop _ h
  · exact h

theorem At.noting {act : Noting α} {P : α → Prop} (h : K.At m₀ frame n m) (hact : K.Notes act P)
    (line : Json) (quiet : Bool)
    (hR : ∀ a m', K.At m₀ frame n m' → m'.env = m.env → P a → R a m') :
    Ends (noting line quiet act) m R (K.Stop m₀) := by
  rw [ends_noting]
  refine (hact []).mono (fun a rs ha => ?_) fun f rs hf => ?_
  · exact hR a _ ⟨h.along, h.env⟩ rfl ha
  · exact ⟨hf, h.env, (h.stop hf).2.2⟩

theorem At.remark {R : Unit → Machine → Prop} (h : K.At m₀ frame n m) (line : Json)
    (quiet : Bool) (r : Remark) (hR : ∀ m', K.At m₀ frame n m' → m'.env = m.env → R () m') :
    Ends (Run.noting line quiet (Noting.remark r)) m R (K.Stop m₀) :=
  h.noting (notes_remark (P := fun _ => True) r trivial) line quiet
    fun _ m' h' henv _ => hR m' h' henv

theorem At.mention {R : Unit → Machine → Prop} {r : Except Crash Remark}
    (h : K.At m₀ frame n m) (hr : Limited (fun _ => True) r) (line : Json) (quiet : Bool)
    (hR : ∀ m', K.At m₀ frame n m' → m'.env = m.env → R () m') :
    Ends (Run.noting line quiet (Noting.mention quiet r)) m R (K.Stop m₀) :=
  h.noting (notes_mention hr) line quiet fun _ m' h' henv _ => hR m' h' henv

theorem At.pushPending {t : Term} {intent? : Option Intent} {R : Unit → Machine → Prop}
    (h : K.At m₀ frame n m) (ht : K.strict → t.isAbsent = false)
    (hR : ∀ m', K.At m₀ ((t, intent?) :: frame) n m' → R () m') :
    Ends (pushPending t intent?) m R (K.Stop m₀) := by
  rw [ends_pushPending]
  split
  · rename_i habsent
    exact h.stop (fault_of_strict fun hs => by simp [ht hs] at habsent)
  · obtain ⟨ws, vs, he, hw, hstack, hheld⟩ := h.along
    exact hR _ ⟨⟨ws, vs, he, hw, by simp [hstack, Frame.items], hheld⟩, h.env⟩

theorem At.pop {p : Term × Option Intent} {R : Item → Machine → Prop}
    (h : K.At m₀ (p :: frame) n m)
    (hR : ∀ m', K.At m₀ frame n m' → m'.env = m.env → R (.pending p.1 p.2) m') :
    Ends pop m R (K.Stop m₀) := by
  obtain ⟨ws, vs, he, hw, hstack, hheld⟩ := h.along
  rw [ends_pop hstack]
  exact hR _ ⟨⟨ws, vs, he, hw, rfl, hheld⟩, h.env⟩ rfl

theorem At.has {item : Item} (h : K.At m₀ frame n m) (hi : K.Result place m.env item) :
    K.Has m₀ frame n place { m with stack := item :: m.stack } :=
  ⟨item, m.stack, rfl, h, hi⟩

theorem At.hasValue (h : K.At m₀ frame n m) {v : Value} (hv : K.read v) :
    K.Has m₀ frame n false { m with stack := .value (.fresh v) :: m.stack } :=
  h.has ⟨rfl, seen_fresh hv _⟩

/-- The waiting node on top is evaluated. -/
theorem At.resume {t : Term} {intent? : Option Intent} {act : Run Unit}
    {R : Unit → Machine → Prop} (h : K.At m₀ ((t, intent?) :: frame) n m)
    (hact : K.Yields act place) (hR : ∀ m', K.Has m₀ frame n place m' → R () m') :
    Ends (resume (within t act)) m R (K.Stop m₀) := by
  simp only [Run.resume, ends_bind]
  refine h.pop fun m' h' _ => ends_within_stop t ?_
  exact (hact m₀ frame n m' h').mono (fun _ m'' hhas => hR m'' hhas) fun _ _ hs => hs

theorem Has.popView {R : View → Machine → Prop} (h : K.Has m₀ frame n false m)
    (hR : ∀ v m', K.At m₀ frame n m' → m'.env = m.env → K.Seen m'.env v → R v m') :
    Ends popView m R (K.Stop m₀) := by
  obtain ⟨item, rest, hstack, hat, hresult⟩ := h
  match item with
  | .value v =>
    rw [ends_popView hstack]
    exact hR v _ hat rfl hresult.2
  | .location l? => simp [Result] at hresult
  | .pending .. => exact hresult.elim

theorem Has.popLocation {R : Option Location → Machine → Prop} (h : K.Has m₀ frame n true m)
    (hR : ∀ l? m', K.At m₀ frame n m' → (∀ l, l? = some l → K.Place m'.env l) → R l? m') :
    Ends popLocation m R (K.Stop m₀) := by
  obtain ⟨item, rest, hstack, hat, hresult⟩ := h
  match item with
  | .location l? =>
    rw [ends_popLocation hstack]
    exact hR l? _ hat hresult.2
  | .value v => simp [Result] at hresult
  | .pending .. => exact hresult.elim

/-- A value is no place; only an incomplete tree puts one where a place is needed. -/
theorem Has.popLocation_value {R : Option Location → Machine → Prop}
    (h : K.Has m₀ frame n false m) (hs : ¬ K.strict) :
    Ends Run.popLocation m R (K.Stop m₀) := by
  obtain ⟨item, rest, hstack, hat, hresult⟩ := h
  match item with
  | .value v =>
    simp only [Run.popLocation, ends_bind, ends_pop hstack, shown, Item.display, ends_pure]
    exact hat.breach hs _
  | .location l? => simp [Result] at hresult
  | .pending .. => exact hresult.elim

/-- An operand stays held, and readable, while another computation runs. -/
theorem At.holding {view : View} {act : Run Unit} {frame' : Frame} {R : View → Machine → Prop}
    (h : K.At m₀ frame n m) (hv : K.Seen m.env view)
    (hact : ∀ m', K.At m₀ frame (n + 1) m' →
      Ends act m' (fun _ => K.Has m₀ frame' (n + 1) place) (K.Stop m₀))
    (hR : ∀ w m', K.Has m₀ frame' n place m' → K.Seen m'.env w → R w m') :
    Ends (holding view act) m R (K.Stop m₀) := by
  obtain ⟨ws, vs, he, hw, hstack, hheld, hlen, hread⟩ := h.along
  have hmore : K.At m₀ frame (n + 1) { m with held := view :: m.held } := by
    refine ⟨⟨ws, view :: vs, he, hw, hstack, by simp [hheld], by simp [hlen], ?_⟩, h.env⟩
    intro u hu
    rcases List.mem_cons.1 hu with rfl | hu
    · exact hv
    · exact hread u hu
  refine ends_holding (fun _ _ _ hs => hs) ((hact _ hmore).mono ?_ fun _ _ hs => hs)
  rintro - m' ⟨item, below, hstack, hat, hresult⟩
  -- The operand is the first of the held ones again, by their number.
  obtain ⟨ws', us, he', hw', hbelow, hheld', hlen', hread'⟩ := hat.along
  obtain ⟨w, us, rfl⟩ := List.exists_of_length_succ us hlen'
  refine ⟨w, _, hheld', hR w _ ?_ (hread' w List.mem_cons_self)⟩
  have hlength : us.length = n := by simpa using hlen'
  refine ⟨item, below, hstack, ⟨⟨ws', us, he', hw', hbelow, rfl, hlength, ?_⟩, hat.env⟩, hresult⟩
  exact fun u hu => hread' u (List.mem_cons_of_mem w hu)

/-! ## The environment -/

/-- A change of names by evaluation. -/
theorem At.inScope {act : Scoped α} {a : Action} (h : K.At m₀ frame n m) (ha : a.Own m.env)
    (hact : a.apply m.env = (act.run.run m.env).2)
    (hok : K.strict → Ends act m.env (fun _ _ => True) (fun _ _ => False))
    (hR : ∀ x m', K.At m₀ frame n m' → act.run.run m.env = (.ok x, m'.env) → R x m') :
    Ends (inScope act) m R (K.Stop m₀) := by
  obtain ⟨ws, vs, he, hw, hstack, hheld, hlen, hseen⟩ := h.along
  have heffect : Effect m₀.env ws (a.apply m.env) := by
    simpa using he.trans (.act ha)
  have henv : K.Env (a.apply m.env) := h.env.act ha
  have hseen' : ∀ v ∈ vs, K.Seen (a.apply m.env) v := fun v hv => (hseen v hv).own h.env ha
  rw [ends_inScope, ends_iff]
  refine ⟨fun x e' hr => ?_, fun b e' hr => ?_⟩
  · obtain rfl : a.apply m.env = e' := hact.trans (congrArg Prod.snd hr)
    exact hR x _ ⟨⟨ws, vs, heffect, hw, hstack, hheld, hlen, hseen'⟩, henv⟩ hr
  · obtain rfl : a.apply m.env = e' := hact.trans (congrArg Prod.snd hr)
    exact ⟨fault_of_strict fun hs => ((hok hs).of_error hr).elim, henv, ws, heffect, hw⟩

theorem At.store {R : Unit → Machine → Prop} (h : K.At m₀ frame n m) (hv : K.value v)
    (hadmits : K.Admits m.env l) (hl : K.strict → m.env.Valid l ∧ l.char? = none)
    (hR : ∀ m', K.At m₀ frame n m' →
      (K.strict → m'.env.Valid l ∧ ∃ new, m'.env.cell? l = some new ∧ new.descend l.path = v) →
        R () m') :
    Ends (store l v) m R (K.Stop m₀) := by
  obtain ⟨ws, vs, he, hw, hstack, hheld, hlen, hseen⟩ := h.along
  simp only [Run.store, ends_bind, ends_inScope, ends_modify]
  rw [ends_iff]
  refine ⟨fun _ e' hr => ?_, fun b e' hr => ?_⟩
  -- The stack and the held operands follow a write that succeeds.
  · refine hR _ ⟨⟨ws ++ [(l, v)], vs.map (View.follow l v), he.trans (.store hr), ?_, ?_, ?_, ?_,
      ?_⟩, ?_⟩ fun hs => ?_
    · intro hs w hin
      rcases List.mem_append.1 hin with hin | hin
      · exact hw hs w hin
      · obtain rfl := List.mem_singleton.1 hin
        exact ⟨hv, hadmits.keys hs⟩
    · simp only [hstack, Frame.items, List.map_append, List.map_map]
      congr 1
      exact List.map_congr_left fun i _ => (Item.followAll_append ws [(l, v)] i).symm
    · simp only [hheld, List.map_append, List.map_map]
      congr 1
      exact List.map_congr_left fun u _ => (View.followAll_append ws [(l, v)] u).symm
    · simp [hlen]
    · intro w hin
      obtain ⟨u, hu, rfl⟩ := List.mem_map.1 hin
      exact (hseen u hu).follow h.env hadmits hv hr
    · exact h.env.store hadmits hv hr
    · obtain ⟨hvalid, hchar⟩ := hl hs
      exact (hvalid.ends_store hchar).of_ok hr
  -- One that fails changes nothing, and its location was not valid.
  · have hsame : e' = m.env := by
      have hkeep : Ends (Scoped.store l v) m.env (fun _ _ => True) (fun _ t => t = m.env) := by
        rw [Scoped.ends_store]
        exact ⟨fun _ => rfl, fun _ => ⟨fun _ => rfl, fun _ _ => ⟨fun _ => rfl, fun _ _ =>
          ⟨fun _ => rfl, fun _ _ => trivial⟩⟩⟩⟩
      exact hkeep.of_error hr
    subst hsame
    refine h.stop (fault_of_strict fun hs => ?_)
    obtain ⟨hvalid, hchar⟩ := hl hs
    exact ((hvalid.ends_store hchar).of_error hr).elim

end

end Contract

end PhpInterpreter
