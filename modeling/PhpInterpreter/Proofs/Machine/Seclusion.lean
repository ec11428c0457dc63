import PhpInterpreter.Proofs.Machine.Nested
import PhpInterpreter.Proofs.Machine.Quiet
import PhpInterpreter.Proofs.Scope.Mirror

/-!
A program run inside a scope of its own sees of the environment what its global statements list, and
nothing else. On two machines that agree on those names it comes to the same, whatever else there is
in the two environments, and wherever the values of the names are kept.
-/

namespace PhpInterpreter

open Environment

/-- Nothing is being evaluated, and the environment is in order. -/
structure Machine.Idle (m : Machine) : Prop where
  consistent : Consistent m.env
  stack : m.stack = []
  held : m.held = []

/-- The tree is run inside a scope that is opened for it: the run comes to `r` with the machine `t`,
and to `left` once the scope is closed. -/
def Node.RunsNested (n : Node) (m : Machine) (name kind : String) (r : Except Fault Value)
    (t : Machine) (left : Environment) : Prop :=
  ∃ index opened, (Scoped.openScope name kind).run.run m.env = (.ok index, opened) ∧
    n.run { m with env := opened } = (r, t) ∧
    (Scoped.closeScope index).run.run t.env = (.ok (), left)

namespace Comparison

variable {P : String → Prop} {e e' : Environment} {m m' : Machine}

/-- Runs inside scopes opened in two environments; each prints and logs after what it found. -/
def secluded (h : Matched P e e') (m m' : Machine) : Comparison where
  toTranscript := .after .same m.log m'.log
  bond := h.bond
  outputs s s' := ∃ later, s = m.output ++ later ∧ s' = m'.output ++ later
  outputs_append more := by
    rintro ⟨later, rfl, rfl⟩
    exact ⟨later ++ more, by rw [String.append_assoc], by rw [String.append_assoc]⟩

theorem move_secluded (h : Matched P e e') (ts : List Term) :
    ts.map (secluded h m m').move = ts := by
  have hmove : (secluded h m m').move = id := funext Term.mapPlace_id
  rw [hmove, List.map_id]

/-- Two runs that return alike or stop alike come to the same. -/
theorem Both.secluded {h : Matched P e e'} {u u' : Machine} {act act' : Run Value}
    (hboth : (secluded h m m').Both act act' u u' fun v w t t' =>
      v = w ∧ (secluded h m m').Tied t t') :
    ∃ r t t', act.outcome u = (r, t) ∧ act'.outcome u' = (r, t') ∧
      (Comparison.secluded h m m').Tied t t' := by
  rcases paired_iff.1 hboth with ⟨v, w, t, t', hr, hr', rfl, ht⟩ | ⟨f, _, t, t', hr, hr', rfl, ht⟩
  · exact ⟨.ok v, t, t', hr, hr', ht⟩
  · refine ⟨.error f, t, t', hr, ?_, ht⟩
    rw [Run.outcome, hr']
    exact congrArg (fun f => (Except.error f, t')) (Renumbering.fault_same f)

end Comparison

/-- A tree run on two machines inside scopes that mirror each other. -/
theorem Node.run_mirrored {P : String → Prop} {e e' : Environment} {m m' : Machine} {n : Node}
    {head : Head} {ts : List Term} (h : Matched P e e') (hm : m.Idle) (hm' : m'.Idle)
    {u u' : Environment} (hu : Mirrors P e e' u u') (hterm : n.toTerm = .program head true ts)
    (hg : ∀ t ∈ ts, t.GlobalsIn P) :
    ∃ r t t', n.run { m with env := u } = (r, t) ∧ n.run { m' with env := u' } = (r, t') ∧
      (Comparison.secluded h m m').Tied t t' := by
  have hstart : (Comparison.secluded h m m').Tied { m with env := u } { m' with env := u' } := by
    refine ⟨hu, ?_, ⟨"", by simp, by simp⟩, ?_, Transcript.logs_after ..⟩
    · rw [hm.held, hm'.held]
      exact .nil
    · rw [hm.stack, hm'.stack]
      exact .nil
  have hboth := hstart.statements (v := .null) hg (Q := fun v w t t' =>
    v = w ∧ (Comparison.secluded h m m').Tied t t') fun _ _ _ ht => ⟨rfl, ht⟩
  rw [Comparison.move_secluded] at hboth
  rw [Node.run, Node.run, hterm]
  exact hboth.secluded

/-- On two idle machines that agree on the global names a program lists, whether they are bound,
what their values are and which of them share a slot, the program does the same inside a scope of
its own: it comes to the same value or error, prints the same and logs the same, and the machines
agree on those names after it and once the scope is closed. -/
theorem Node.run_secluded {kind kind' text : String} {p : Source.Program} {n : Node}
    {m m' : Machine} (name name' : String) (hm : m.Idle) (hm' : m'.Idle)
    (hkind : (ScopeKind.ofLabel? kind).isSome = true)
    (hkind' : (ScopeKind.ofLabel? kind').isSome = true)
    (hp : Source.parse text = .ok p) (hn : p.toNode = .ok n)
    (hagree : AgreeOn (· ∈ p.globals) m.env m'.env) :
    ∃ r t t' left left' printed remarks,
      n.RunsNested m name kind r t left ∧ n.RunsNested m' name' kind' r t' left' ∧
      t.output = m.output ++ printed ∧ t'.output = m'.output ++ printed ∧
      t.log = m.log ++ remarks ∧ t'.log = m'.log ++ remarks ∧
      AgreeOn (· ∈ p.globals) t.env t'.env ∧ AgreeOn (· ∈ p.globals) left left' := by
  have h : Matched (· ∈ p.globals) m.env m'.env := ⟨hm.consistent, hm'.consistent, hagree⟩
  obtain ⟨k, hk⟩ := Option.isSome_iff_exists.1 hkind
  obtain ⟨k', hk'⟩ := Option.isSome_iff_exists.1 hkind'
  obtain ⟨_, _, hopen, rfl, rfl⟩ := (hm.consistent.ends_openScope_eq name hk).returns
  obtain ⟨_, _, hopen', rfl, rfl⟩ := (hm'.consistent.ends_openScope_eq name' hk').returns
  obtain ⟨head, ts, hterm, hg⟩ :=
    Source.Program.globalsIn_toNode (Source.parse_sound hp) hn fun _ hname => hname
  obtain ⟨r, t, t', hrun, hrun', ht⟩ :=
    Node.run_mirrored h hm hm' (h.mirrors_opened name name' k k') hterm hg
  have hmirrors : Mirrors (· ∈ p.globals) m.env m'.env t.env t'.env := ht.envs
  obtain ⟨_, left, hclose, rfl⟩ := (hmirrors.inside.ends_closeScope_eq hm.consistent).returns
  obtain ⟨_, left', hclose', rfl⟩ := (hmirrors.inside'.ends_closeScope_eq hm'.consistent).returns
  obtain ⟨printed, hout, hout'⟩ := ht.output
  obtain ⟨remarks, hlog, hlog'⟩ := ht.log
  have hagree' := hmirrors.agree h
  refine ⟨r, t, t', _, _, printed, remarks, ⟨_, _, hopen, hrun, hclose⟩,
    ⟨_, _, hopen', hrun', hclose'⟩, hout, hout', hlog, ?_, hagree',
    hagree'.closed h hmirrors.inside hmirrors.inside'⟩
  rwa [Renumbering.remark_same, List.map_id] at hlog'

/-! ## Two machines -/

/-- There is a global name and nothing else. -/
def plainMachine : Machine :=
  { Machine.init with
    env := Scoped.written ⟨globalIndex, 1, [], none⟩ (.number (.int 41))
      (Scoped.declared globalIndex "g" .init) }

/-- There is another global name before it, something is printed, and a function is entered. -/
def busyMachine : Machine :=
  { Machine.init with
    env := Environment.opened "f" .function
      (Scoped.written ⟨globalIndex, 2, [], none⟩ (.number (.int 41))
        (Scoped.declared globalIndex "g" (Scoped.declared globalIndex "x" .init)))
    output := "before" }

theorem idle_plainMachine : plainMachine.Idle := by
  refine ⟨?_, rfl, rfl⟩
  have hg : Consistent (Scoped.declared globalIndex "g" .init) :=
    (Scoped.steps_declared consistent_init rfl rfl rfl).consistent
  exact (Scoped.steps_written hg _).consistent

theorem idle_busyMachine : busyMachine.Idle := by
  refine ⟨?_, rfl, rfl⟩
  have hx : Consistent (Scoped.declared globalIndex "x" .init) :=
    (Scoped.steps_declared consistent_init rfl rfl rfl).consistent
  have hg : Consistent (Scoped.declared globalIndex "g" (Scoped.declared globalIndex "x" .init)) :=
    (Scoped.steps_declared hx rfl rfl rfl).consistent
  exact ((Scoped.steps_written hg _).consistent.inside_opened (P := fun _ => False)).consistent

theorem agreeOn_machines : AgreeOn (· ∈ ["g"]) plainMachine.env busyMachine.env := by
  refine ⟨fun g hg => ?_, fun g hg => ?_, fun g h hg hh => ?_⟩
  · obtain rfl := List.mem_singleton.1 hg
    rfl
  · obtain rfl := List.mem_singleton.1 hg
    rfl
  · obtain rfl := List.mem_singleton.1 hg
    obtain rfl := List.mem_singleton.1 hh
    exact iff_of_true ⟨2, rfl, rfl⟩ ⟨1, rfl, rfl⟩

/-- The program adds to the global name through a reference, reads a name that only one of the
machines has, outside, and stops. -/
theorem Node.run_secluded_reference :
    ∃ p n r t t' left left' printed remarks,
      Source.parse "global $g; $y = &$g; $y = $y + 1; echo $y, $x; unset($y); 1 % 0;" = .ok p ∧
      p.toNode = .ok n ∧ p.globals = ["g"] ∧
      n.RunsNested plainMachine "f" "function" r t left ∧
      n.RunsNested busyMachine "C" "class" r t' left' ∧
      t.output = printed ∧ t'.output = "before" ++ printed ∧
      t.log = remarks ∧ t'.log = remarks ∧
      AgreeOn (· ∈ p.globals) t.env t'.env ∧ AgreeOn (· ∈ p.globals) left left' := by
  have hparse : (Source.parse
      "global $g; $y = &$g; $y = $y + 1; echo $y, $x; unset($y); 1 % 0;").toOption.map
      (fun p => (p.globals, p.toNode.isOk)) = some (["g"], true) := by decide +kernel
  cases hp : Source.parse "global $g; $y = &$g; $y = $y + 1; echo $y, $x; unset($y); 1 % 0;" with
  | error e =>
    rw [hp] at hparse
    cases hparse
  | ok p =>
    rw [hp] at hparse
    obtain ⟨hglobals, hok⟩ := Prod.mk.inj (Option.some.inj hparse)
    cases hn : p.toNode with
    | error e =>
      rw [hn] at hok
      cases hok
    | ok n =>
      have hfunction : (ScopeKind.ofLabel? "function").isSome = true := by decide
      have hclass : (ScopeKind.ofLabel? "class").isSome = true := by decide
      have hagree : AgreeOn (· ∈ p.globals) plainMachine.env busyMachine.env := by
        rw [hglobals]
        exact agreeOn_machines
      obtain ⟨r, t, t', left, left', printed, remarks, hrun, hrun', hout, hout', hlog, hlog',
        hafter, hleft⟩ := Node.run_secluded "f" "C" idle_plainMachine idle_busyMachine hfunction
          hclass hp hn hagree
      refine ⟨p, n, r, t, t', left, left', printed, remarks, rfl, hn, hglobals, hrun, hrun', ?_,
        hout', ?_, ?_, hafter, hleft⟩
      · rw [hout]
        exact String.empty_append
      · exact hlog
      · exact hlog'

end PhpInterpreter
