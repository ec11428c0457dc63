import PhpInterpreter.Proofs.Source.Step
import PhpInterpreter.Source.Reader

/-!
What the reader makes: every leaf of a program is spelt by a token of its kind. The parser keeps
this of all that waits in it from token to token.
-/

namespace PhpInterpreter.Source

/-! ## Spellings -/

/-- The text is what the terminal matches at the start of some characters. -/
def Terminal.Spells (t : Terminal) (text : String) : Prop :=
  ∃ cs, t.length cs ≠ 0 ∧ text = String.ofList (cs.take (t.length cs))

namespace Terminal

theorem spells_of_first? {p : Terminal → Bool} {cs : List Char} {t : Terminal} {n : Nat}
    (h : first? p cs = some (t, n)) : t.Spells (String.ofList (cs.take n)) := by
  obtain ⟨t', -, ht'⟩ := List.exists_of_findSome?_eq_some h
  split at ht'
  · split at ht'
    · cases ht'
    · rename_i k hk hne
      obtain ⟨rfl, rfl⟩ := Prod.mk.inj (Option.some.inj ht')
      exact ⟨cs, hne, rfl⟩
  · cases ht'

/-- A variable is spelt with a dollar sign and a name. -/
theorem Spells.variable_toList {text : String} (h : Terminal.variable.Spells text) :
    ∃ c cs, startsName c = true ∧ text.toList = '$' :: c :: cs := by
  obtain ⟨cs, hlength, rfl⟩ := h
  simp only [length, variableLength] at hlength ⊢
  split at hlength
  · rename_i c rest
    split at hlength
    · rename_i hc
      rw [if_pos hc, Nat.add_comm]
      exact ⟨c, _, hc, String.toList_ofList⟩
    · exact absurd rfl hlength
  · exact absurd rfl hlength

theorem Spells.mem_of_oneOf {texts : List String} {t : Terminal} {text : String}
    (ht : ∀ cs, t.length cs = oneOf texts cs) (h : t.Spells text) : text ∈ texts := by
  obtain ⟨cs, hlength, rfl⟩ := h
  rw [ht, oneOf] at hlength ⊢
  split at hlength
  · rename_i s hs
    have hmatch : s.toList.isPrefixOf cs = true := by
      simpa using List.find?_some hs
    have hprefix : s.toList <+: cs := List.isPrefixOf_iff_prefix.1 hmatch
    rw [← String.length_toList, ← List.prefix_iff_eq_take.1 hprefix, String.ofList_toList]
    exact List.mem_of_find?_eq_some hs
  · exact absurd rfl hlength

theorem Spells.assignOp_text {text : String} (h : assignOp.Spells text) :
    text ∈ ["**=", "??=", "+=", "-=", "*=", "/=", ".=", "%="] :=
  h.mem_of_oneOf fun _ => rfl

end Terminal

/-- The text of a token is one its terminal matches. -/
def Token.Lexed (t : Token) : Prop := t.terminal.Spells t.text

/-! ## Programs -/

def AssignOp.Sound : AssignOp → Prop
  | plain => True
  | compound op => Terminal.assignOp.Spells (op.symbol ++ "=")

def Name.Sound (n : Name) : Prop := Terminal.variable.Spells ("$" ++ n.name)

mutual

/-- Every leaf is spelt by a token of its kind. -/
def Expr.Sound : Expr → Prop
  | .variable _ name => Terminal.variable.Spells ("$" ++ name)
  | .number _ text => Terminal.number.Spells text
  | .string _ raw => Terminal.doubleQuoted.Spells raw ∨ Terminal.singleQuoted.Spells raw
  | .boolean .. | .null _ => True
  | .array _ _ entries => Entry.SoundAll entries
  | .subscript _ base key => base.Sound ∧ key.Sound
  | .append _ base => base.Sound
  | .unary _ _ operand => operand.Sound
  | .binary _ _ left right => left.Sound ∧ right.Sound
  | .assign _ op target value => op.Sound ∧ target.Sound ∧ value.Sound
  | .reference _ target source => target.Sound ∧ source.Sound

def Entry.Sound : Entry → Prop
  | .item _ value _ => value.Sound
  | .keyed _ key value _ => key.Sound ∧ value.Sound

def Entry.SoundAll : List Entry → Prop
  | [] => True
  | e :: rest => e.Sound ∧ Entry.SoundAll rest

end

theorem Entry.soundAll_iff {entries : List Entry} :
    Entry.SoundAll entries ↔ ∀ e ∈ entries, e.Sound := by
  induction entries with
  | nil => simp [Entry.SoundAll]
  | cons e rest ih => simp [Entry.SoundAll, ih]

def Stmt.Sound : Stmt → Prop
  | .expression _ e => e.Sound
  | .echo _ operands => ∀ e ∈ operands, e.Sound
  | .global _ names | .unset _ names => ∀ n ∈ names, n.Sound

def Program.Sound (p : Program) : Prop := ∀ s ∈ p.statements, s.Sound

/-! ## The parser between two tokens -/

def Operand.Sound (o : Operand) : Prop := o.expr.Sound

def EntryHead.Sound : EntryHead → Prop
  | fresh | ref _ => True
  | key k | keyRef k => k.Sound

def Frame.Sound : Frame → Prop
  | group _ | unary .. => True
  | subscript o | binary o _ | reference o => o.Sound
  | entries _ _ done head => (∀ e ∈ done, e.Sound) ∧ head.Sound
  | assign o op => o.Sound ∧ op.Sound

def Context.Sound : Context → Prop
  | expression => True
  | echo _ done => ∀ e ∈ done, e.Sound

def Phase.Sound : Phase → Prop
  | start | statement | closed | unsetParen _ | unsetName _ => True
  | operand context frames | arrayParen context frames _ =>
    context.Sound ∧ ∀ f ∈ frames, f.Sound
  | operator context frames o => context.Sound ∧ (∀ f ∈ frames, f.Sound) ∧ o.Sound
  | globalName _ done | globalNext _ done | unsetNext _ done | unsetMore _ done
  | unsetEnd _ done => ∀ n ∈ done, n.Sound

namespace Parser

/-- All that waits in the parser is sound. -/
def Sound (p : Parser) : Prop := (∀ s ∈ p.done, s.Sound) ∧ p.phase.Sound

def Outcome.Sound : Outcome → Prop
  | next phase => phase.Sound
  | finished s => s.Sound

variable {context : Context} {frames : List Frame} {o : Operand} {t : Token}

theorem name_sound (h : t.Lexed) (hv : t.terminal = .variable) : (name t).Sound := by
  rw [Token.Lexed, hv] at h
  obtain ⟨c, cs, -, htext⟩ := h.variable_toList
  have hname : "$" ++ (name t).name = t.text := by
    apply String.toList_inj.1
    simp [name, htext]
  rw [Name.Sound, hname]
  exact h

theorem assignOp?_sound {op : AssignOp} (h : t.Lexed) (hop : assignOp? t = some op) : op.Sound := by
  unfold assignOp? at hop
  split at hop
  · obtain rfl := Option.some.inj hop
    trivial
  · rename_i hterminal
    rw [Token.Lexed, hterminal] at h
    obtain ⟨b, hb, rfl⟩ := Option.map_eq_some_iff.1 hop
    have hsymbol : b.symbol = String.ofList t.text.toList.dropLast := by
      simpa [BinaryOp.ofSymbol?] using List.find?_some hb
    -- All these texts end in the equals sign that is put back here.
    have hends : ∀ s ∈ ["**=", "??=", "+=", "-=", "*=", "/=", ".=", "%="],
        String.ofList s.toList.dropLast ++ "=" = s := by decide
    rw [AssignOp.Sound, hsymbol, hends _ h.assignOp_text]
    exact h
  · cases hop

/-- Completing operators keeps what waits sound. -/
theorem reduce_sound (limit : Nat) (hf : ∀ f ∈ frames, f.Sound) (ho : o.Sound) :
    (∀ f ∈ (reduce limit frames o).1, f.Sound) ∧ (reduce limit frames o).2.Sound := by
  fun_induction reduce limit frames o with
  | case1 pos op rest o hlimit ih =>
    rw [List.forall_mem_cons] at hf
    exact ih hf.2 ho
  | case3 left op rest o hlimit ih =>
    rw [List.forall_mem_cons] at hf
    exact ih hf.2 ⟨hf.1, ho⟩
  | case5 target op rest o hlimit ih =>
    rw [List.forall_mem_cons] at hf
    exact ih hf.2 ⟨hf.1.2, hf.1.1, ho⟩
  | case7 target rest o hlimit ih =>
    rw [List.forall_mem_cons] at hf
    exact ih hf.2 ⟨hf.1, ho⟩
  | case2 | case4 | case6 | case8 | case9 => exact ⟨hf, ho⟩

theorem finishEntry_sound {head : EntryHead} (hh : head.Sound) (ho : o.Sound) :
    (finishEntry head o).Sound := by
  cases head with
  | fresh | ref => exact ho
  | key | keyRef => exact ⟨hh, ho⟩

theorem finishArray_sound {done : List Entry} (pos : Position) (short : Bool)
    (hd : ∀ e ∈ done, e.Sound) : (finishArray pos short done).Sound := by
  simpa [Operand.Sound, finishArray, Expr.Sound, Entry.soundAll_iff] using hd

theorem Leaf.sound {e : Expr} (ht : t.Lexed) (h : Leaf t e) : e.Sound := by
  cases h with
  | «variable» hterminal => exact name_sound ht hterminal
  | number hterminal =>
    rw [Token.Lexed, hterminal] at ht
    exact ht
  | string hterminal =>
    rw [Token.Lexed] at ht
    simp only [List.mem_cons, List.not_mem_nil, or_false] at hterminal
    rcases hterminal with hterminal | hterminal
    · exact .inl (hterminal ▸ ht)
    · exact .inr (hterminal ▸ ht)
  | boolean | null => trivial

/-- A token where an operand is due is an operand, or it opens or closes a frame. -/
theorem TakesOperand.sound {phase : Phase} (hc : context.Sound) (hf : ∀ f ∈ frames, f.Sound)
    (ht : t.Lexed) (h : TakesOperand context t frames phase) : phase.Sound := by
  cases h with
  | leaf he => exact ⟨hc, hf, he.sound ht⟩
  | group | sign => exact ⟨hc, List.forall_mem_cons.2 ⟨trivial, hf⟩⟩
  | bracket => exact ⟨hc, List.forall_mem_cons.2 ⟨⟨nofun, trivial⟩, hf⟩⟩
  | array => exact ⟨hc, hf⟩
  | reference =>
    obtain ⟨htarget, hrest⟩ := List.forall_mem_cons.1 hf
    exact ⟨hc, List.forall_mem_cons.2 ⟨htarget.1, hrest⟩⟩
  | item | keyed =>
    obtain ⟨hentries, hrest⟩ := List.forall_mem_cons.1 hf
    exact ⟨hc, List.forall_mem_cons.2 ⟨hentries, hrest⟩⟩
  | append =>
    obtain ⟨hbase, hrest⟩ := List.forall_mem_cons.1 hf
    exact ⟨hc, hrest, hbase⟩
  | close =>
    obtain ⟨hentries, hrest⟩ := List.forall_mem_cons.1 hf
    exact ⟨hc, hrest, finishArray_sound _ _ hentries.1⟩

/-- A token that ends an expression completes the innermost frame, an operand or a statement. -/
theorem TakesEnd.sound {terminal : Terminal} {r : Outcome} (hc : context.Sound)
    (hf : ∀ f ∈ frames, f.Sound) (ho : o.Sound) (h : TakesEnd o terminal frames context r) :
    r.Sound := by
  cases h with
  | expression => exact ho
  | echo =>
    have hdone := List.forall_mem_cons.2 (And.intro (show o.expr.Sound from ho) hc)
    exact fun e he => hdone e (List.mem_reverse.1 he)
  | comma => exact ⟨List.forall_mem_cons.2 ⟨ho, hc⟩, hf⟩
  | entry =>
    obtain ⟨hentries, hrest⟩ := List.forall_mem_cons.1 hf
    have hdone := List.forall_mem_cons.2 ⟨finishEntry_sound hentries.2 ho, hentries.1⟩
    exact ⟨hc, List.forall_mem_cons.2 ⟨⟨hdone, trivial⟩, hrest⟩⟩
  | key =>
    obtain ⟨hentries, hrest⟩ := List.forall_mem_cons.1 hf
    exact ⟨hc, List.forall_mem_cons.2 ⟨⟨hentries.1, ho⟩, hrest⟩⟩
  | group => exact ⟨hc, (List.forall_mem_cons.1 hf).2, ho⟩
  | close =>
    obtain ⟨hentries, hrest⟩ := List.forall_mem_cons.1 hf
    have hdone := List.forall_mem_cons.2 ⟨finishEntry_sound hentries.2 ho, hentries.1⟩
    exact ⟨hc, hrest, finishArray_sound _ _ hdone⟩
  | subscript =>
    obtain ⟨hbase, hrest⟩ := List.forall_mem_cons.1 hf
    exact ⟨hc, hrest, hbase, ho⟩

theorem TakesOperator.sound {r : Outcome} (hc : context.Sound) (hf : ∀ f ∈ frames, f.Sound)
    (ho : o.Sound) (ht : t.Lexed) (h : TakesOperator context frames o t r) : r.Sound := by
  cases h with
  | @binary op =>
    obtain ⟨hf', ho'⟩ := reduce_sound (completes op) hf ho
    exact ⟨hc, List.forall_mem_cons.2 ⟨ho', hf'⟩⟩
  | assign _ hop => exact ⟨hc, List.forall_mem_cons.2 ⟨⟨ho, assignOp?_sound ht hop⟩, hf⟩⟩
  | subscript => exact ⟨hc, List.forall_mem_cons.2 ⟨ho, hf⟩⟩
  | ends _ _ _ h =>
    obtain ⟨hf', ho'⟩ := reduce_sound 0 hf ho
    exact h.sound hc hf' ho'

theorem TakesStatement.sound {phase : Phase} (ht : t.Lexed) (h : TakesStatement t phase) :
    phase.Sound := by
  cases h with
  | empty | unset | close => trivial
  | global => exact nofun
  | echo => exact ⟨nofun, nofun⟩
  | operand h =>
    have hcontext : Context.expression.Sound := trivial
    have hframes : ∀ f ∈ ([] : List Frame), f.Sound := nofun
    exact h.sound hcontext hframes ht

theorem Moves.sound {phase phase' : Phase} (hphase : phase.Sound) (ht : t.Lexed)
    (h : Moves t phase phase') : phase'.Sound := by
  cases h with
  | openTag | unsetParen => trivial
  | start h | statement h => exact h.sound ht
  | operand h => exact h.sound hphase.1 hphase.2 ht
  | operator h => exact h.sound hphase.1 hphase.2.1 hphase.2.2 ht
  | arrayParen => exact ⟨hphase.1, List.forall_mem_cons.2 ⟨⟨nofun, trivial⟩, hphase.2⟩⟩
  | globalName hterminal | unsetMore hterminal =>
    exact List.forall_mem_cons.2 ⟨name_sound ht hterminal, hphase⟩
  | unsetName hterminal => exact List.forall_mem_cons.2 ⟨name_sound ht hterminal, nofun⟩
  | globalComma | unsetComma | unsetClose | unsetMoreClose => exact hphase

theorem Finishes.sound {phase : Phase} {s : Stmt} (hphase : phase.Sound) (ht : t.Lexed)
    (h : Finishes t phase s) : s.Sound := by
  cases h with
  | operator h => exact h.sound hphase.1 hphase.2.1 hphase.2.2 ht
  | global | unset => exact fun n hn => hphase n (List.mem_reverse.1 hn)

/-- A token that is taken leaves all that waits in the parser sound. -/
theorem feed_sound {p q : Parser} (hp : p.Sound) (ht : t.Lexed) (h : p.feed t = some q) :
    q.Sound := by
  obtain ⟨hdone, hphase⟩ := hp
  cases feeds_of_eq h with
  | moves hmoves => exact ⟨hdone, hmoves.sound hphase ht⟩
  | finishes hfinishes =>
    exact ⟨List.forall_mem_cons.2 ⟨hfinishes.sound hphase ht, hdone⟩, trivial⟩

theorem init_sound : init.Sound := ⟨nofun, trivial⟩

theorem finish?_sound {p : Parser} {program : Program} (hp : p.Sound)
    (h : p.finish? = some program) : program.Sound := by
  unfold finish? at h
  split at h
  · obtain rfl := Option.some.inj h
    exact fun s hs => hp.1 s (List.mem_reverse.1 hs)
  · obtain rfl := Option.some.inj h
    exact fun s hs => hp.1 s (List.mem_reverse.1 hs)
  · obtain rfl := Option.some.inj h
    exact fun s hs => hp.1 s (List.mem_reverse.1 hs)
  · cases h

end Parser

/-! ## Reading -/

/-- A text that is read to its end leaves a parser that may stop there. -/
theorem read_sound {p q : Parser} {here last : Position} {cs : List Char} (hp : p.Sound)
    (h : read p here last cs = .ok q) : q.Sound ∧ q.finish?.isSome := by
  -- Space and comments leave the parser as it is, every other token is fed to it.
  fun_induction read p here last cs with
  | case1 p here last program hprogram =>
    obtain rfl := Except.ok.inj h
    exact ⟨hp, by simp [hprogram]⟩
  | case2 => cases h
  | case3 => cases h
  | case4 p here last c rest terminal n hfirst text after hignored ih => exact ih hp h
  | case5 => cases h
  | case6 p here last c rest terminal n hfirst text after hignored q hfeed ih =>
    have hlexed : Token.Lexed ⟨terminal, String.ofList text, here⟩ :=
      Terminal.spells_of_first? hfirst
    exact ih (Parser.feed_sound hp hlexed hfeed) h

theorem parse_sound {text : String} {program : Program} (h : parse text = .ok program) :
    program.Sound := by
  unfold parse at h
  split at h
  · cases h
  · rename_i p hp
    obtain ⟨hsound, hsome⟩ := read_sound Parser.init_sound hp
    obtain ⟨program', hprogram⟩ := Option.isSome_iff_exists.1 hsome
    obtain rfl := Except.ok.inj h
    rw [hprogram]
    exact Parser.finish?_sound hsound hprogram

end PhpInterpreter.Source
