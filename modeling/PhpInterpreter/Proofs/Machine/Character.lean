import PhpInterpreter.Proofs.Machine.Landing
import PhpInterpreter.Proofs.Machine.Readback

/-!
Characters that are written. The position of an offset is found in the string as it is, and found
again when the offset is read; the string is filled up with spaces if it is too short. An offset
past the largest integer crashes, and so does one before the start with too many digits to be told.
-/

namespace PhpInterpreter

open Run Environment

/-! ## Splicing -/

/-- The text `t` is `s` with a character written at a position; new places before it are spaces. -/
structure WrittenAt (s t : List Char) (p : Nat) (c : Char) : Prop where
  length : t.length = max s.length (p + 1)
  there : t[p]? = some c
  old : ∀ i, i < s.length → i ≠ p → t[i]? = s[i]?
  gap : ∀ i, s.length ≤ i → i < p → t[i]? = some ' '

theorem writtenAt_writeAt (s : List Char) (p : Nat) (c : Char) :
    WrittenAt s (writeAt s p c) p c := by
  have hfront : (s.take p ++ List.replicate (p - s.length) ' ').length = p := by simp; omega
  have hrest : ∀ i, p ≤ i → (writeAt s p c)[i]? = (c :: s.drop (p + 1))[i - p]? := by
    intro i hi
    rw [writeAt, List.getElem?_append_right (by omega), hfront]
  have hfirst : ∀ i, i < p →
      (writeAt s p c)[i]? = (s.take p ++ List.replicate (p - s.length) ' ')[i]? := by
    intro i hi
    rw [writeAt, List.getElem?_append_left (by omega)]
  refine ⟨?_, ?_, fun i hi hne => ?_, fun i hi hp => ?_⟩
  · rw [writeAt, List.length_append, hfront, List.length_cons, List.length_drop]
    omega
  · rw [hrest p (Nat.le_refl p), Nat.sub_self, List.getElem?_cons_zero]
  · rcases Nat.lt_or_gt_of_ne hne with hp | hp
    · rw [hfirst i hp, List.getElem?_append_left (by simp; omega), List.getElem?_take_of_lt hp]
    · obtain ⟨j, rfl⟩ := Nat.exists_eq_add_of_lt hp
      rw [hrest _ (by omega), show p + j + 1 - p = j + 1 by omega, List.getElem?_cons_succ,
        List.getElem?_drop]
      congr 1
      omega
  · rw [hfirst i hp, List.getElem?_append_right (by simp; omega), List.getElem?_replicate]
    simp
    omega

/-! ## Positions -/

namespace Key

variable {k : Key} {s t : String}

theorem position_nonneg_iff : 0 ≤ k.position s ↔ -(s.toList.length : Int) ≤ k.offset := by
  unfold position
  split <;> omega

/-- Filling a string up does not move the position of an offset. -/
theorem position_of_length {p : Int} (hk : k.position s = p) (hp : 0 ≤ p)
    (ht : t.toList.length = max s.toList.length (p.toNat + 1)) : k.position t = p := by
  unfold position at *
  split at hk <;> rename_i hneg
  · rw [if_pos hneg]
    omega
  · rwa [if_neg hneg]

end Key

theorem Value.characterAt_of_writtenAt {s t : String} {p : Int} {c : Char} (hp : 0 ≤ p)
    (h : WrittenAt s.toList t.toList p.toNat c) : characterAt t p = .string c.toString := by
  rw [characterAt, if_pos hp, h.there]

namespace Environment

variable {e : Environment} {x : String} {r : Location} {s : String}

/-- A name that is bound is not declared. -/
theorem declare_of_names (h : e.Names e.current x r) :
    (Scoped.declare x none).run.run e = (.ok r, e) := by
  obtain ⟨s, hs, hname, howner, hpath, hchar⟩ := h
  have hends : Ends (Scoped.declare x none) e (fun r' e' => r' = r ∧ e' = e) fun _ _ => False := by
    rw [Scoped.ends_declare]
    refine ⟨fun hnone => (nomatch hs.symm.trans hnone), fun s' hs' => ?_⟩
    obtain rfl := Option.some.inj (hs.symm.trans hs')
    refine ⟨fun hfree => (nomatch hname.symm.trans hfree), fun slot hslot => ?_⟩
    obtain rfl := Option.some.inj (hname.symm.trans hslot)
    refine ⟨fun hnone => (nomatch howner.symm.trans hnone), fun o ho => ⟨?_, rfl⟩⟩
    obtain rfl := Option.some.inj (howner.symm.trans ho)
    rw [← hpath, ← hchar]
  rcases hrun : (Scoped.declare x none).run.run e with ⟨b | r', e'⟩
  · exact (hends.of_error hrun).elim
  · obtain ⟨rfl, rfl⟩ := hends.of_ok hrun
    rfl

/-- A whole variable that holds a string is overwritten. -/
theorem store_of_names (h : e.Names e.current x r) (hs : e.load r = .string s) (v : Value) :
    (Scoped.store r v).run.run e = (.ok (), Scoped.written r v e) := by
  obtain ⟨_, -, -, -, hpath, hchar⟩ := h
  have hcell : e.cell? r ≠ none := by
    intro hnone
    have hnone : (e.scope? r.scope).bind (fun s => Assoc.get? r.slot s.cells) = none := hnone
    simp [load, hnone] at hs
  obtain ⟨c, hc⟩ := Option.ne_none_iff_exists'.1 hcell
  obtain ⟨t, ht, hslot⟩ := Option.bind_eq_some_iff.1 hc
  have hends : Ends (Scoped.store r v) e (fun _ e' => e' = Scoped.written r v e)
      fun _ _ => False := by
    rw [Scoped.ends_store]
    simp [hchar, ht, hslot, hpath, Value.setAt?]
  rcases hrun : (Scoped.store r v).run.run e with ⟨b | u, e'⟩
  · exact (hends.of_error hrun).elim
  · rw [hends.of_ok hrun]

end Environment

namespace Run

variable {e : Environment} {m m₁ m₂ : Machine} {h hv : Head} {name : Datum} {x : String}
  {base key value : Term} {levels : List Level} {level : Level} {k : Key} {r : Location}
  {s text : String} {v : Value} {l? : Option Location} {c : Char} {more : List Char}

/-! ## One character -/

/-- A variable that is bound is where its name leads. -/
theorem returns_evalRoot_variable (hv : Head) (hx : variableName name = pure x)
    (hr : e.Names e.current x r) :
    Returns e (Term.evalRoot (.variable hv name)) (some r) [] e [] := by
  rw [Term.evalRoot, variableBody, hx, pure_bind]
  exact returns_declare (declare_of_names hr)

/-- Where an offset of a string variable leads. Before the start, telling the offset may stop. -/
theorem finds_resolve_character (hx : variableName name = pure x)
    (hr : e.Names e.current x r) (hs : e.load r = .string s) (hk : level.key? = some k)
    (hmark : level.byref = false) :
    Finds e (resolve (.variable hv name) [level])
      (fun l? => l? = some (r.atChar (k.position s)) ∧ (k.position s < 0 → ¬ k.Unwritten))
      fun f => f = .crash .digitLimit ∧ k.position s < 0 ∧ k.Unwritten := by
  obtain ⟨_, _, _, _, _, hwhole⟩ := id hr
  refine Finds.bind ((returns_evalRoot_variable hv hx hr).finds ?_)
  rw [descendAll, descend_whole hwhole]
  refine Settles.bind (Settles.located _ (Finds.bind (finds_load ?_)))
  rw [hs]
  refine Finds.bind ((finds_character hk r).mono ?_ ?_)
  · rintro _ - ⟨-, rfl, htold⟩
    exact settles_pure (settles_pure ⟨rfl, rfl, rfl, rfl, htold⟩)
  · rintro f (hbyref | ⟨⟨-, rfl, hunwritten⟩, hbefore⟩)
    · exact absurd hbyref (by simp [hmark])
    · exact ⟨rfl, hbefore, hunwritten⟩

/-- Resolving an offset of a string variable changes nothing, even if it stops. -/
theorem ends_resolve_character (hx : variableName name = pure x)
    (hr : m.env.Names m.env.current x r) (hs : m.env.load r = .string s) :
    Ends (resolve (.variable hv name) [level]) m (fun _ m' => m'.env = m.env)
      fun _ m' => m'.env = m.env := by
  obtain ⟨_, _, _, _, _, hwhole⟩ := id hr
  obtain ⟨said, hroot⟩ := returns_evalRoot_variable hv hx hr m rfl
  rw [resolve, ends_bind]
  refine (ends_outcome hroot).mono ?_ fun _ _ hf => hf.elim
  rintro _ _ ⟨rfl, rfl⟩
  rw [descendAll, descend_whole hwhole, ends_bind, ends_located, ends_bind, ends_load,
    show (m.after [] m.env [] said).env.load r = .string s from hs]
  dsimp only
  rw [ends_bind]
  exact (reads_character level r s _).mono (fun _ _ henv => henv) fun _ _ henv => henv

/-- An assignment whose parts are evaluated: its target is resolved, and the value is written
there. -/
def put (p : Place) (line : Json) (root : Term) (levels : List Level) (v : Value) : Run Unit :=
  located p (resolve root levels) >>= fun l? => writeTo line l? v >>= pushView

/-- A plain assignment to a subscript goes on from there, once its parts are evaluated. -/
theorem outcome_assign_subscript {head : Head}
    (hready : (readied (.subscript h base key) value).outcome m = (.ok (v, levels), m₁)) :
    (assignBody head (.subscript h base key) value
        ((Term.subscript h base key).eval (some .write)) (value.eval (some .read))).outcome m =
      (put h.place head.place.line (Term.subscript h base key).root levels v).outcome m₁ := by
  rw [assignBody_eq]
  rw [readied] at hready
  rcases hvalued : (valued (.subscript h base key) value).outcome m with ⟨f | v', m'⟩
  · rw [outcome_bind_of_error hvalued] at hready
    cases hready
  rw [outcome_bind_of_ok hvalued] at hready ⊢
  rcases hkeys : (Term.subscript h base key).evalKeys.outcome m' with ⟨f | levels', m₀⟩
  · rw [outcome_bind_of_error hkeys] at hready
    cases hready
  rw [outcome_bind_of_ok hkeys] at hready
  cases hready
  have hwrite : (within (.subscript h base key)
      ((Term.subscript h base key).eval (some .write))).outcome m' =
        (located h.place (resolve (Term.subscript h base key).root levels >>=
          pushLocation)).outcome m₁ := by
    rw [eval_subscript_write, bind_assoc]
    simp only [within, Term.head?, outcome_located, outcome_bind_of_ok hkeys]
  rw [put]
  rcases hplace : (resolve (Term.subscript h base key).root levels).outcome m₁ with ⟨f | l?, m₂⟩
  · rw [outcome_located, outcome_bind_of_error hplace] at hwrite
    rw [outcome_bind_of_error hwrite, outcome_bind_of_error]
    rw [outcome_located, hplace]
    rfl
  · rw [outcome_located, outcome_bind_of_ok hplace] at hwrite
    have hlocated : (located h.place (resolve (Term.subscript h base key).root levels)).outcome m₁ =
        (.ok l?, m₂) := by
      rw [outcome_located, hplace]
      rfl
    rw [outcome_bind_of_ok hwrite, outcome_bind_of_ok hlocated]
    rfl

/-- Reading a variable under a key, in whatever way the key is expressed, gives this value and
changes nothing. -/
def ReadsUnder (m : Machine) (name : Datum) (k : Key) (w : Value) : Prop :=
  ∀ h hv key intent m₁, h.byref = false → hv.byref = false → key.ReadOnly → intent ≠ .write →
    (Term.subscript h (.variable hv name) key).evalKeys.outcome m =
      (.ok [levelOf h (.variable hv name) (some k)], m₁) →
    ∃ v m₂, ((Term.subscript h (.variable hv name) key).eval (some intent)).outcome m =
        (.ok (), m₂) ∧
      m₂.stack = .value v :: m.stack ∧ v.value = w ∧ m₂.env = m.env

/-- A character of a string variable is read where it is. -/
theorem readsUnder_character (hx : variableName name = pure x) (hr : m.env.Names m.env.current x r)
    (hs : m.env.load r = .string s)
    (hc : Value.characterAt s (k.position s) = .string c.toString) :
    ReadsUnder m name k (.string c.toString) := by
  intro h hv key intent m₁ hmark hmark' hkey hintent hkeys
  have hchain : (Term.subscript h (.variable hv name) key).Chain := ⟨trivial, hkey⟩
  obtain ⟨-, hsees, -⟩ := sees_of_outcome hchain hintent hkeys
  have hroot : Returns m.env (peekRoot (.subscript h (.variable hv name) key))
      ⟨.string s, some r⟩ [] m.env [] := by
    rw [peekRoot, peekRoot, hx, pure_bind]
    have hlookup : (Scoped.lookup x none).run.run m.env = (.ok (some r), m.env) :=
      lookup_of_names hr
    refine returns_iff.2 (Finds.bind ((returns_inScope hlookup).finds (finds_view ?_)))
    rw [hs]
  have hwalk : (Value.string s).walk true [levelOf h (.variable hv name) (some k)] =
      .ok (.string c.toString) := by
    have hunmarked : (levelOf h (.variable hv name) (some k)).byref = false := by
      simp [levelOf, hmark, Term.byref, Term.head?, hmark']
    rw [Value.walk_cons, Value.step, hunmarked, ← hc]
    rfl
  rcases hsees with ⟨root, hroot', hread⟩ | ⟨hstops, -⟩ | ⟨hstops, -⟩
  · obtain rfl := hroot.eq hroot'
    rw [hwalk] at hread
    rcases gives_iff.1 hread with ⟨v, hv, -, y, hy, hdefined⟩ | hstops
    · obtain rfl := Except.ok.inj hy
      obtain ⟨said, hrun⟩ := hv m rfl
      refine ⟨v, _, hrun, ?_, eq_of_defined hdefined (by simp), rfl⟩
      rw [Machine.after_nil]
      rfl
    · obtain ⟨f, hstuck⟩ := hstops.exists_fault
      exact absurd hstuck (Value.not_stuck hwalk (by simp))
  · exact absurd hstops hroot.not_stops
  · exact absurd hstops hroot.not_stops

theorem returns_toText (htext : v.toText.outcome.1 = .ok text) (e : Environment) (line : Json) :
    Returns e (noting line false v.toText) text [] e [] := by
  refine returns_iff.2 (finds_noting ?_)
  rcases hrun : v.toText.run.run [] with ⟨a, rs⟩
  have hok : a = .ok text := by rw [← htext, Noting.outcome, hrun]
  simp [Ends, hrun, hok]

/-- What a write at a position of a string comes to. -/
theorem Settles.writeTo_character {line : Json} {Q : Outcome Unit} {E : Fault → Prop}
    (hwhole : r.char? = none) (hs : e.load r = .string s) (htext : v.toText.outcome.1 = .ok text)
    (hc : text.toList = c :: more) (p : Int)
    (hbefore : p < 0 → Q () [.value (.fresh .null)] e [])
    (hlimit : maxInt < p → E (.crash .outOfRange))
    (hstore : 0 ≤ p → p ≤ maxInt → Settles e
      (Run.store r (.string (String.ofList (writeAt s.toList p.toNat c))))
      (fun _ items e' ws => items = [] ∧ Q () [.value (.fresh (.string c.toString))] e' ws) E) :
    Settles e (writeTo line (some (r.atChar p)) v >>= pushView) Q E := by
  have hcontainer : (r.atChar p).container = r := by
    rw [Location.container, Location.atChar, ← hwhole]
  have hwrite : writeTo line (some (r.atChar p)) v >>= pushView =
      Run.writeCharacter line (r.atChar p) p v >>= fun w => pushView (.fresh w) := by
    simp only [writeTo, Location.atChar, bind_assoc, pure_bind]
  rw [hwrite]
  refine Settles.bind ?_
  by_cases hneg : p < 0
  · rw [Run.writeCharacter, if_pos hneg]
    exact settles_pure ((returns_pushView _).settles (hbefore hneg))
  · refine Settles.writeCharacter hneg (by rwa [hcontainer]) (returns_toText htext e line) hc hlimit
      fun hlong => ?_
    rw [hcontainer]
    refine Settles.bind ((hstore (Int.not_lt.1 hneg) (Int.not_lt.1 hlong)).mono ?_ fun _ hf => hf)
    rintro _ _ e' ws - ⟨rfl, hQ⟩
    refine settles_pure ((returns_pushView _).settles ?_)
    simpa only [List.map_nil, List.append_nil] using hQ

section Put

variable (hv) (p : Place) (line : Json)

/-- What a write at an offset of a string variable comes to. Before the start nothing is written, if
the offset can be told; up to the largest integer a character is. -/
theorem settles_put_character (hx : variableName name = pure x) (hr : e.Names e.current x r)
    (hs : e.load r = .string s) (hk : level.key? = some k) (hmark : level.byref = false)
    (htext : v.toText.outcome.1 = .ok text) (hc : text.toList = c :: more) :
    Settles e (put p line (.variable hv name) [level] v)
      (fun _ items e' _ =>
        (k.position s < 0 ∧ ¬ k.Unwritten) ∧ items = [.value (.fresh .null)] ∧ e' = e ∨
        (0 ≤ k.position s ∧ k.position s ≤ maxInt) ∧
          items = [.value (.fresh (.string c.toString))] ∧ e' = Scoped.written r
            (.string (String.ofList (writeAt s.toList (k.position s).toNat c))) e)
      fun f => (k.position s < 0 ∧ k.Unwritten) ∧ f = .crash .digitLimit ∨
        maxInt < k.position s ∧ f = .crash .outOfRange := by
  obtain ⟨_, -, -, -, -, hwhole⟩ := id hr
  refine Finds.bind (Settles.located p ((finds_resolve_character hx hr hs hk hmark).mono ?_ ?_))
  · rintro _ - ⟨rfl, htold⟩
    refine .writeTo_character hwhole hs htext hc _
      (fun hneg => .inl ⟨⟨hneg, htold hneg⟩, rfl, rfl⟩) (fun hlong => .inr ⟨hlong, rfl⟩)
      fun hpos hle => ?_
    have hwritten := store_of_names hr hs
      (.string (String.ofList (writeAt s.toList (k.position s).toNat c)))
    refine settles_store (ends_iff.2 ⟨fun _ _ hrun => ?_, fun _ _ hrun => ?_⟩)
    · exact ⟨rfl, .inr ⟨⟨hpos, hle⟩, rfl, congrArg Prod.snd (hrun.symm.trans hwritten)⟩⟩
    · cases hwritten.symm.trans hrun
  · rintro _ ⟨rfl, huntold⟩
    exact .inl ⟨huntold, rfl⟩

/-- A write at an offset of a string variable that stops has changed nothing. -/
theorem ends_put_character (hx : variableName name = pure x)
    (hr : m.env.Names m.env.current x r) (hs : m.env.load r = .string s) :
    Ends (put p line (.variable hv name) [level] v) m (fun _ _ => True)
      fun _ m' => m'.env = m.env := by
  rw [put, ends_bind, ends_located]
  refine (ends_resolve_character hx hr hs).mono (fun l? m₁ henv => ?_) fun _ _ henv => henv
  have hwrite : Clean (writeTo line l? v >>= pushView) :=
    (clean_writeTo _ _ _).bind_returns fun _ _ => trivial
  exact henv ▸ hwrite m₁

/-- How a write at an offset of a string variable ends on a machine. -/
theorem put_character_ends (hx : variableName name = pure x)
    (hr : m.env.Names m.env.current x r) (hs : m.env.load r = .string s)
    (hk : level.key? = some k) (hmark : level.byref = false)
    (htext : v.toText.outcome.1 = .ok text) (hc : text.toList = c :: more) :
    ∃ res m', (put p line (.variable hv name) [level] v).outcome m = (res, m') ∧
      (k.position s < 0 → m'.env = m.env ∧ (k.Unwritten → res = .error (.crash .digitLimit)) ∧
        (¬ k.Unwritten → res = .ok () ∧ m'.stack.head? = some (.value (.fresh .null)))) ∧
      (0 ≤ k.position s → k.position s ≤ maxInt → res = .ok () ∧
        m'.stack.head? = some (.value (.fresh (.string c.toString))) ∧
        m'.env = Scoped.written r
          (.string (String.ofList (writeAt s.toList (k.position s).toNat c))) m.env) ∧
      (maxInt < k.position s → res = .error (.crash .outOfRange) ∧ m'.env = m.env) := by
  have hlimit : 0 ≤ maxInt := by decide
  have hsettled := settles_put_character hv p line hx hr hs hk hmark htext hc
  rcases hsettled with ⟨_, items, e', ws, hact, hcases⟩ | hstops
  · obtain ⟨said, hrun⟩ := hact m rfl
    refine ⟨.ok (), _, hrun, ?_⟩
    rcases hcases with ⟨⟨hneg, htold⟩, rfl, rfl⟩ | ⟨⟨hpos, hle⟩, rfl, rfl⟩
    · exact ⟨fun _ => ⟨rfl, fun huntold => absurd huntold htold, fun _ => ⟨rfl, rfl⟩⟩,
        fun hpos => absurd hneg (Int.not_lt.2 hpos), fun hlong => by omega⟩
    · exact ⟨fun hneg => absurd hneg (Int.not_lt.2 hpos), fun _ _ => ⟨rfl, rfl, rfl⟩,
        fun hlong => absurd hlong (Int.not_lt.2 hle)⟩
  · obtain ⟨f, m', hrun, hf⟩ := hstops m rfl
    have henv := (ends_put_character hv p line hx hr hs).of_error hrun
    refine ⟨.error f, m', hrun, ?_⟩
    rcases hf with ⟨⟨hneg, huntold⟩, rfl⟩ | ⟨hlong, rfl⟩
    · exact ⟨fun _ => ⟨henv, fun _ => rfl, fun htold => absurd huntold htold⟩,
        fun hpos => absurd hneg (Int.not_lt.2 hpos), fun hlong => by omega⟩
    · exact ⟨fun hneg => by omega, fun _ hle => absurd hlong (Int.not_lt.2 hle),
        fun _ => ⟨rfl, henv⟩⟩

end Put

end Run

/-- Assigning to a string variable under a key writes the first character of the value's text.
Before the start nothing is stored and null is yielded, if the offset can be told. Up to the largest
integer it succeeds and yields the character, only the string changes, spaces fill it up to the
position, and reading under the key gives the character. Beyond that it crashes and stores
nothing. -/
theorem assign_character {m m₁ : Machine} {h ht hv : Head} {name : Datum} {x : String}
    {key value : Term} {intent? : Option Intent} {v : Value} {k : Key} {r : Location}
    {s text : String} {c : Char} {more : List Char} (hintent : intent? ≠ some .write)
    (hforeign : value ≠ .foreign) (hmark : value.byref = false)
    (hmarks : ht.byref = false ∧ hv.byref = false)
    (hready : (readied (.subscript ht (.variable hv name) key) value).outcome m =
      (.ok (v, [levelOf ht (.variable hv name) (some k)]), m₁))
    (hx : variableName name = pure x) (hr : m₁.env.Names m₁.env.current x r)
    (hs : m₁.env.load r = .string s) (htext : v.toText.outcome.1 = .ok text)
    (hc : text.toList = c :: more) :
    ∃ res m', ((Term.assign h (.string "=") (.subscript ht (.variable hv name) key) value).eval
        intent?).outcome m = (res, m') ∧
      (k.offset < -(s.toList.length : Int) → m'.env = m₁.env ∧ (¬ k.Unwritten →
        res = .ok () ∧ m'.stack.head? = some (.value (.fresh .null)))) ∧
      (-(s.toList.length : Int) ≤ k.offset → k.position s ≤ maxInt → res = .ok () ∧
        m'.stack.head? = some (.value (.fresh (.string c.toString))) ∧
        ∃ s', m'.env = Scoped.written r (.string s') m₁.env ∧ m'.env.load r = .string s' ∧
          WrittenAt s.toList s'.toList (k.position s).toNat c ∧
          ReadsUnder m' name k (.string c.toString)) ∧
      (maxInt < k.position s → res = .error (.crash .outOfRange) ∧ m'.env = m₁.env) := by
  have hkey : (levelOf ht (.variable hv name) (some k)).key? = some k := rfl
  have hlevel : (levelOf ht (.variable hv name) (some k)).byref = false := by
    simp [levelOf, hmarks, Term.byref, Term.head?]
  rw [eval_assign rfl hforeign hmark hintent, outcome_assign_subscript hready]
  obtain ⟨res, m', hrun, hbefore, hinside, hbeyond⟩ :=
    put_character_ends hv ht.place h.place.line hx hr hs hkey hlevel htext hc
  refine ⟨res, m', hrun, fun hoffset => ?_, fun hoffset hle => ?_, hbeyond⟩
  · obtain ⟨henv, -, htold⟩ := hbefore
      (Int.not_le.1 fun hpos => Int.not_le.2 hoffset (k.position_nonneg_iff.1 hpos))
    exact ⟨henv, htold⟩
  · have hpos := k.position_nonneg_iff.2 hoffset
    obtain ⟨hok, hhead, henv⟩ := hinside hpos hle
    have hspliced : WrittenAt s.toList
        (String.ofList (writeAt s.toList (k.position s).toNat c)).toList
        (k.position s).toNat c := by
      rw [String.toList_ofList]
      exact writtenAt_writeAt ..
    generalize String.ofList (writeAt s.toList (k.position s).toNat c) = s' at henv hspliced
    have hload := (load_of_store (store_of_names hr hs (.string s'))).2
    refine ⟨hok, hhead, _, henv, henv ▸ hload, hspliced, ?_⟩
    refine readsUnder_character hx (henv ▸ hr.written ..) (henv ▸ hload) ?_
    rw [k.position_of_length rfl hpos hspliced.length]
    exact Value.characterAt_of_writtenAt hpos hspliced

/-- The text `xy`, as a term. -/
def lettersTerm : Term := .literal ⟨"string", default, false⟩ (.string "xy")

/-- The target `$s[n]`, for a number or a numeral. -/
def letterAt (offset : Datum) : Term :=
  .subscript ⟨"offsetlookup", default, false⟩ (.variable ⟨"variable", default, false⟩ (.string "s"))
    (.literal ⟨"number", default, false⟩ offset)

/-- The place of a variable after a text was run, and the string that it holds. -/
def heldAfter (text x : String) : Option (Location × String) := do
  let n ← (Source.tree text).toOption
  let e := (n.run .init).2.env
  let l ← (← ((Scoped.lookup x (some e.current)).run.run e).1.toOption)
  match e.load l with
  | .string s => return (l, s)
  | _ => none

theorem exists_of_heldAfter {text x s : String} {l : Location}
    (h : heldAfter text x = some (l, s)) :
    ∃ n, Source.tree text = .ok n ∧
      (n.run .init).2.env.Names (n.run .init).2.env.current x l ∧
      (n.run .init).2.env.load l = .string s := by
  simp only [heldAfter, Option.bind_eq_bind, Option.bind_eq_some_iff] at h
  obtain ⟨n, hn, l?, hlookup, l', rfl, h⟩ := h
  split at h
  · rename_i hload
    cases h
    exact ⟨n, eq_ok_of_toOption hn, names_of_lookup (Prod.ext (eq_ok_of_toOption hlookup) rfl),
      hload⟩
  · cases h

/-- The level of the target, with its key. -/
def letterLevel (k : Int) : Level :=
  levelOf ⟨"offsetlookup", default, false⟩ (.variable ⟨"variable", default, false⟩ (.string "s"))
    (some (.int k))

theorem readied_letters (m : Machine) :
    ∃ m₁, (readied (letterAt (.string "5")) lettersTerm).outcome m =
      (.ok (.string "xy", [letterLevel 5]), m₁) ∧ m₁.env = m.env :=
  ⟨_, rfl, rfl⟩

/-- After `$s = 'abc'`, the assignment `$s[5] = 'xy'` fills the string up and writes an `x`. -/
theorem assign_character_past_end :
    ∃ n l s' m', Source.tree "$s = 'abc';" = .ok n ∧
      (n.run .init).2.env.Names (n.run .init).2.env.current "s" l ∧
      (n.run .init).2.env.load l = .string "abc" ∧
      ((Term.assign default (.string "=") (letterAt (.string "5")) lettersTerm).eval none).outcome
        (n.run .init).2 = (.ok (), m') ∧
      m'.env.load l = .string s' ∧ WrittenAt "abc".toList s'.toList 5 'x' ∧
      ReadsUnder m' (.string "s") (.int 5) (.string "x") := by
  have hassigned : ∀ (m : Machine) (l : Location), m.env.Names m.env.current "s" l →
      m.env.load l = .string "abc" → ∃ s' m',
        ((Term.assign default (.string "=") (letterAt (.string "5")) lettersTerm).eval
          none).outcome m = (.ok (), m') ∧
        m'.env.load l = .string s' ∧ WrittenAt "abc".toList s'.toList 5 'x' ∧
        ReadsUnder m' (.string "s") (.int 5) (.string "x") := by
    intro m l hnames hload
    obtain ⟨m₁, hready, henv⟩ := readied_letters m
    rw [← henv] at hnames hload
    have htext : (Value.string "xy").toText.outcome.1 = .ok "xy" := rfl
    have hletter : "xy".toList = 'x' :: ['y'] := rfl
    have hforeign : lettersTerm ≠ .foreign := by simp [lettersTerm]
    obtain ⟨_, m', hrun, -, hwrites, -⟩ := assign_character (h := default)
      (by decide : (none : Option Intent) ≠ some .write) hforeign rfl ⟨rfl, rfl⟩ hready rfl hnames
      hload htext hletter
    obtain ⟨rfl, -, s', -, hstored, hwritten, hreads⟩ := hwrites (by decide) (by decide)
    exact ⟨s', m', hrun, hstored, hwritten, hreads⟩
  have hheld : heldAfter "$s = 'abc';" "s" = some (⟨0, 1, [], none⟩, "abc") := by decide +kernel
  obtain ⟨n, hn, hnames, hload⟩ := exists_of_heldAfter hheld
  obtain ⟨s', m', hsays⟩ := hassigned _ _ hnames hload
  exact ⟨n, _, s', m', hn, hnames, hload, hsays⟩

/-- How an assignment goes after a text was run: the keys of its target, the text of its value, and
the crash it ends with. -/
def crashAfter (text : String) (target value : Term) :
    Option (List (Option Key) × String × Crash) := do
  let n ← (Source.tree text).toOption
  let (v, levels) ← ((readied target value).outcome (n.run .init).2).1.toOption
  let written ← v.toText.outcome.1.toOption
  let assigned := ((Term.assign default (.string "=") target value).eval none).outcome
    (n.run .init).2
  match assigned.1 with
  | .error (.crash c) => return (levels.map (·.key?), written, c)
  | _ => none

/-- After a text was run, the parts of an assignment of `xy` to an offset of `$s` are evaluated, and
then it crashes. -/
def CrashesAt (text : String) (offset : Datum) (k : Key) (c : Crash) : Prop :=
  ∃ n v levels m₁ m', Source.tree text = .ok n ∧
    (readied (letterAt offset) lettersTerm).outcome (n.run .init).2 = (.ok (v, levels), m₁) ∧
    levels.map (·.key?) = [some k] ∧ v.toText.outcome.1 = .ok "xy" ∧
    ((Term.assign default (.string "=") (letterAt offset) lettersTerm).eval none).outcome
      (n.run .init).2 = (.error (.crash c), m')

theorem crashesAt_of_crashAfter {text : String} {offset : Datum} {k : Key} {c : Crash}
    (h : crashAfter text (letterAt offset) lettersTerm = some ([some k], "xy", c)) :
    CrashesAt text offset k c := by
  simp only [crashAfter, Option.bind_eq_bind, Option.bind_eq_some_iff] at h
  obtain ⟨n, hn, ⟨v, levels⟩, hready, written', hwritten, h⟩ := h
  split at h
  · rename_i c' hrun
    simp only [Option.pure_def, Option.some.injEq, Prod.mk.injEq] at h
    obtain ⟨hkeys, rfl, rfl⟩ := h
    exact ⟨n, v, levels, _, _, eq_ok_of_toOption hn, Prod.ext (eq_ok_of_toOption hready) rfl, hkeys,
      eq_ok_of_toOption hwritten, Prod.ext hrun rfl⟩
  · cases h

/-- An offset before the start of the string crashes if it has too many digits to be told. -/
theorem crashesAt_of_unwritten {text : String} {l : Location} {k : Int}
    (hheld : heldAfter text "s" = some (l, "abc")) (hk : Key.Unwritten (.int k))
    (hbefore : (Key.int k).position "abc" < 0) :
    CrashesAt text (.scalar (.number (.int k))) (.int k) .digitLimit := by
  obtain ⟨n, hn, hnames, hload⟩ := exists_of_heldAfter hheld
  have hforeign : lettersTerm ≠ .foreign := by simp [lettersTerm]
  obtain ⟨m₁, hready, henv⟩ : ∃ m₁,
      (readied (letterAt (.scalar (.number (.int k)))) lettersTerm).outcome (n.run .init).2 =
        (.ok (.string "xy", [letterLevel k]), m₁) ∧ m₁.env = (n.run .init).2.env := ⟨_, rfl, rfl⟩
  rw [← henv] at hnames hload
  have hx : variableName (.string "s") = pure "s" := rfl
  have hkey : (letterLevel k).key? = some (.int k) := rfl
  have htext : (Value.string "xy").toText.outcome.1 = .ok "xy" := rfl
  have hletter : "xy".toList = 'x' :: ['y'] := rfl
  obtain ⟨_, m', hrun, huntold, -⟩ := put_character_ends ⟨"variable", default, false⟩
    (letterLevel k).place (default : Head).place.line hx hnames hload hkey rfl htext hletter
  obtain ⟨-, hcrash, -⟩ := huntold hbefore
  obtain rfl := hcrash hk
  refine ⟨n, _, _, m₁, m', hn, hready, rfl, htext, ?_⟩
  rw [eval_assign rfl hforeign rfl (by decide)]
  exact (outcome_assign_subscript hready).trans hrun

/-- Not every offset of a string can be written or told: `$s[1e20] = 'xy'` does not succeed, and
neither does the assignment at an offset of five thousand and one digits before the start. -/
theorem assign_character_crashes :
    CrashesAt "$s = 'abc';" (.string "1e20") (.int 100000000000000000000) .outOfRange ∧
      CrashesAt "$s = 'abc';" (.scalar (.number (.int (-farOffset)))) (.int (-farOffset))
        .digitLimit := by
  have hcrash : crashAfter "$s = 'abc';" (letterAt (.string "1e20")) lettersTerm =
      some ([some (.int 100000000000000000000)], "xy", .outOfRange) := by decide +kernel
  have hheld : heldAfter "$s = 'abc';" "s" = some (⟨0, 1, [], none⟩, "abc") := by decide +kernel
  refine ⟨crashesAt_of_crashAfter hcrash,
    crashesAt_of_unwritten hheld (Key.unwritten_neg unwritten_farOffset) ?_⟩
  rw [← Int.not_le, Key.position_nonneg_iff, Int.not_le]
  have hlarge : (3 : Int) < farOffset := by decide +kernel
  exact Int.neg_lt_neg hlarge

end PhpInterpreter
