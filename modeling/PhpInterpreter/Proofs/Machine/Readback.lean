import PhpInterpreter.Proofs.Machine.Effect
import PhpInterpreter.Proofs.Scope.Cell
import PhpInterpreter.Proofs.Source.Complete
import PhpInterpreter.Proofs.Source.Rendering
import PhpInterpreter.Proofs.Value.Equivalence

/-!
Reading values back. The literal of a plain value is evaluated to that value without a remark, so
assigning either text of it to a variable leaves the value there, down to the order of the keys and
the counters of the arrays.
-/

namespace PhpInterpreter

/-! ## Arrays built entry by entry -/

namespace Table

variable {α : Type} {t u : Table α}

/-- The keys of an ordered array determine its counter. -/
theorem Ordered.next_eq (ht : t.Ordered) (hu : u.Ordered) (hkeys : t.keys = u.keys) :
    t.next = u.next := by
  have htnext := ht.next
  have hunext := hu.next
  rw [hkeys] at htnext
  rcases htnext with ⟨hzero, hneg⟩ | ⟨n, hn, hin, hmax, hnext⟩
  · rcases hunext with ⟨huzero, -⟩ | ⟨k, hk, hkin, -, -⟩
    · rw [hzero, huzero]
    · have := hneg k hkin
      omega
  · rcases hunext with ⟨-, huneg⟩ | ⟨k, -, hkin, hkmax, hknext⟩
    · have := huneg n hin
      omega
    · have hle := hmax k hkin
      have hge := hkmax n hin
      omega

/-- The array after entries were set one after the other. -/
def setAll (t : Table α) (entries : List (Key × α)) : Table α :=
  entries.foldl (fun t p => t.set p.1 p.2) t

/-- New entries follow the old ones in their order. -/
theorem Ordered.setAll {entries : List (Key × α)} (h : t.Ordered)
    (hnormal : ∀ k ∈ Assoc.keys entries, k.Normal)
    (hnodup : (Assoc.keys (t.entries ++ entries)).Nodup) :
    (t.setAll entries).Ordered ∧ (t.setAll entries).entries = t.entries ++ entries := by
  induction entries generalizing t with
  | nil => exact ⟨h, (List.append_nil _).symm⟩
  | cons p rest ih =>
    obtain ⟨k, v⟩ := p
    have hfresh : k ∉ Assoc.keys t.entries := by
      have hsplit : (Assoc.keys t.entries ++ k :: Assoc.keys rest).Nodup := by
        simpa [Assoc.keys] using hnodup
      intro hk
      exact (List.nodup_append.1 hsplit).2.2 k hk k List.mem_cons_self rfl
    have hset : (t.set k v).entries = t.entries ++ [(k, v)] := Assoc.insert_of_notMem v hfresh
    obtain ⟨hk, hrest⟩ := List.forall_mem_cons.1 hnormal
    obtain ⟨hordered, hentries⟩ := ih (h.set hk v) hrest (by simpa [hset] using hnodup)
    refine ⟨hordered, hentries.trans ?_⟩
    rw [hset, List.append_assoc, List.singleton_append]

/-- Setting the entries of an ordered array one after the other builds the array. -/
theorem Ordered.setAll_empty (h : t.Ordered) : Table.empty.setAll t.entries = t := by
  obtain ⟨hordered, hentries⟩ := ordered_empty.setAll h.normal h.nodup
  have hnext := hordered.next_eq h (congrArg Assoc.keys hentries)
  generalize Table.empty.setAll t.entries = u at hentries hnext
  obtain ⟨entries, next⟩ := u
  obtain rfl : entries = t.entries := hentries
  rw [show next = t.next from hnext]

end Table

/-! ## Values that are identical to themselves -/

namespace Value

theorem Plain.defined {v : Value} (h : v.Plain) : v.defined = v := by
  cases h <;> rfl

/-- A plain value can be told apart from others. -/
theorem Plain.discernible {v : Value} (h : v.Plain) : v.Throughout Discernible := by
  have hsingle : ∀ {w : Value}, w ≠ .number (.float .nan) → (∀ i c, w ≠ .object i c) →
      (∀ t, w ≠ .array t) → w.Throughout Discernible := fun hnan hobject harray =>
    throughout_single
      ⟨hnan, fun i c hw => absurd hw (hobject i c), distinctKeys_single harray⟩ harray
  induction h with
  | null | bool _ | string _ => exact hsingle (by simp) (by simp) (by simp)
  | int _ => exact hsingle (by simp [Value.int]) (by simp [Value.int]) (by simp [Value.int])
  | array hordered _ _ ih =>
    exact throughout_array ⟨by simp, by simp, distinctKeys_array hordered.nodup⟩ ih

/-- A plain value is identical to itself. -/
theorem Plain.identical_self {v : Value} (h : v.Plain) : identical v v = .ok true :=
  h.discernible.identical_self

end Value

/-! ## Terms that denote a value -/

open Run

/-- Read anywhere, the term leaves the value on the stack and changes nothing else. -/
structure Term.Denotes (t : Term) (v : Value) : Prop where
  present : t.isAbsent = false
  unmarked : t.byref = false
  eval : ∀ m, Ends (t.eval (some .read)) m
    (fun _ m' => m' = { m with stack := .value (.fresh v) :: m.stack }) fun _ _ => False

namespace Term.Denotes

variable {t : Term} {v : Value} {m : Machine}

theorem ends_resume {i? : Option Intent} {rest : List Item} {R : Unit → Machine → Prop}
    {F : Fault → Machine → Prop} (h : t.Denotes v) (hstack : m.stack = .pending t i? :: rest)
    (hR : R () { m with stack := .value (.fresh v) :: rest }) :
    Ends (resume (within t (t.eval (some .read)))) m R F := by
  refine ends_resume_within hstack ((h.eval _).mono ?_ fun _ _ hf => hf)
  rintro - _ rfl
  exact hR

end Term.Denotes

@[simp] theorem Run.ends_writable {i? : Option Intent} (hi : i? ≠ some .write) {m : Machine}
    {R : Unit → Machine → Prop} {F : Fault → Machine → Prop} :
    Ends (writable i?) m R F ↔ R () m := by
  rw [writable, if_neg hi]
  rfl

theorem Run.logged_nil (line : Json) (quiet : Bool) (m : Machine) : logged line quiet [] m = m := by
  cases quiet <;> simp [logged]

theorem denotes_literal {h : Head} {d : Datum} {v : Value} (hmark : h.byref = false)
    (hv : literalValue h d = pure v) : (Term.literal h d).Denotes v := by
  refine ⟨rfl, hmark, fun m => ?_⟩
  simp [Term.eval, hv]

theorem denotes_number {h : Head} {n : Nat} (hmark : h.byref = false) (hkind : h.kind = "number")
    (hn : (n : Int) ≤ maxInt) :
    (Term.literal h (.string (String.ofList (decimalDigits n)))).Denotes (.int n) := by
  apply denotes_literal hmark
  have hread (text : String) : (Datum.string text).toNumber = Literal.read text := rfl
  simp [literalValue, hkind, hread, Literal.read_decimalDigits hn, Value.int]

/-- A minus sign before the number of a 64-bit integer. -/
theorem denotes_minus {h : Head} {t : Term} {n : Nat} (hmark : h.byref = false)
    (hn : (n : Int) ≤ maxInt) (ht : t.Denotes (.int n)) :
    (Term.unary h (.string "-") t).Denotes (.int (-n)) := by
  have hfits : fits (-(n : Int)) = true := by
    rw [maxInt] at hn
    rw [fits, Bool.and_eq_true, decide_eq_true_iff, decide_eq_true_iff, minInt, maxInt]
    omega
  have hminus : Value.applyUnary .minus (.int n) = pure (.int (-n)) := by
    simp [Value.applyUnary, Value.int, Value.defined, Value.isCompound, Value.toNumber, Number.neg,
      Number.fit, hfits]
  have hread : some Intent.read ≠ some .write := by decide
  refine ⟨rfl, hmark, fun m => ?_⟩
  simp only [Term.eval, Run.unaryBody, ends_bind, ends_writable hread, ends_pushPending, ht.present,
    Bool.false_eq_true, if_false]
  refine ht.ends_resume rfl ?_
  have hsymbol : UnaryOp.ofSymbol? "-" = some .minus := by decide
  rw [ends_popView rfl]
  simp [Datum.string, hsymbol, View.fresh, hminus, logged_nil]

theorem Key.Normal.ends_toKey {k : Key} (h : k.Normal) :
    Ends (View.fresh k.toValue).value.toKey [] (fun w rs => w = k ∧ rs = []) fun _ _ => False := by
  have hrun : k.toValue.toKey.run.run [] = (.ok k, []) := h
  simp [Ends, View.fresh, hrun]

/-- The item of an array literal denotes a key and a value. -/
def Term.DenotesEntry (item : Term) (p : Key × Value) : Prop :=
  ∃ h key value, item = .entry h key value ∧ h.byref = false ∧ key.Denotes p.1.toValue ∧
    value.Denotes p.2

/-- The entries are set one after the other. -/
theorem ends_evalItems {items : List Term} {entries : List (Key × Value)} {m : Machine}
    {u : Table Value} (h : List.Forall₂ Term.DenotesEntry items entries)
    (hnormal : ∀ p ∈ entries, p.1.Normal) (hdefined : ∀ p ∈ entries, p.2.defined = p.2) :
    Ends (Term.evalItems items u) m (fun w m' => w = u.setAll entries ∧ m' = m)
      fun _ _ => False := by
  induction h generalizing u with
  | nil => exact ⟨rfl, rfl⟩
  | @cons item p items entries hitem hitems ih =>
    obtain ⟨h, key, value, rfl, hmark, hkey, hvalue⟩ := hitem
    obtain ⟨k, v⟩ := p
    obtain ⟨hk, hnormalRest⟩ := List.forall_mem_cons.1 hnormal
    obtain ⟨hv, hdefinedRest⟩ := List.forall_mem_cons.1 hdefined
    have hv : v.defined = v := hv
    have hk : k.Normal := hk
    have hpresent : key ≠ .absent := by
      rintro rfl
      cases hkey.present
    have hkey : key.Denotes k.toValue := hkey
    have hvalue : value.Denotes v := hvalue
    rw [Term.evalItems.eq_5 _ _ _ _ _ hpresent, hmark]
    simp only [Bool.false_eq_true, if_false, ends_bind, ends_pushPending, hkey.present,
      hvalue.present]
    refine hkey.ends_resume rfl ?_
    rw [ends_popView rfl, ends_noting]
    refine hk.ends_toKey.mono ?_ fun _ _ hf => hf.elim
    rintro _ _ ⟨rfl, rfl⟩
    rw [logged_nil]
    refine hvalue.ends_resume rfl ?_
    rw [ends_popView rfl]
    simp only [View.fresh, hv]
    exact ih hnormalRest hdefinedRest

namespace Source

open StringLiteral

theorem denotes_integer {e : Expr} {n : Int} (hn : Legible n) (he : e.erase = .integer n) :
    ∃ node, e.toNode = .ok node ∧ node.toTerm.Denotes (.int n) := by
  obtain ⟨hlow, hhigh⟩ := hn
  have habs : (n.natAbs : Int) ≤ maxInt := by
    rw [minInt] at hlow
    rw [maxInt] at hhigh ⊢
    omega
  have hnumber : ∀ {x : Expr}, x.erase = .number .start (String.ofList (decimalDigits n.natAbs)) →
      ∃ node, x.toNode = .ok node ∧ node.toTerm.Denotes (.int n.natAbs) := by
    intro x hx
    cases x with
    | number pos text =>
      obtain rfl : text = String.ofList (decimalDigits n.natAbs) := (Expr.number.inj hx).2
      exact ⟨_, rfl, denotes_number rfl rfl habs⟩
    | _ => cases hx
  rw [Expr.integer] at he
  split at he
  · cases e with
    | unary pos op operand =>
      obtain ⟨-, rfl, hoperand⟩ := Expr.unary.inj he
      obtain ⟨node, hnode, hdenotes⟩ := hnumber hoperand
      refine ⟨nodeAt pos "unary" [("type", .string "-"), ("what", .node node)], ?_, ?_⟩
      · rw [Expr.toNode, hnode]
        rfl
      · have hneg : -(n.natAbs : Int) = n := by omega
        have hminus := denotes_minus (h := ⟨"unary", pos.place, false⟩) rfl habs hdenotes
        rw [hneg] at hminus
        exact hminus
    | _ => cases he
  · have hpos : (n.natAbs : Int) = n := by omega
    rw [← hpos]
    exact hnumber he

theorem denotes_string {e : Expr} {s : String} (he : e.erase = .string .start (encodeSingle s)) :
    ∃ node, e.toNode = .ok node ∧ node.toTerm.Denotes (.string s) := by
  cases e with
  | string pos raw =>
    obtain rfl : raw = encodeSingle s := (Expr.string.inj he).2
    have htext : literalText pos (encodeSingle s) = .ok s := by
      have hquote : ((encodeSingle s).toList.head? == some '\x22') = false := by
        simp [encodeSingle]
      rw [literalText, hquote, decodeSingle_encodeSingle]
      rfl
    refine ⟨_, by rw [Expr.toNode, htext]; rfl, ?_⟩
    exact denotes_literal rfl rfl
  | _ => cases he

theorem denotes_key {e : Expr} {k : Key} (hk : ∀ n, k = .int n → Legible n)
    (he : e.erase = .ofKey k) :
    ∃ node, e.toNode = .ok node ∧ node.toTerm.Denotes k.toValue := by
  cases k with
  | int n => exact denotes_integer (hk n rfl) he
  | str s => exact denotes_string he

theorem denotesEntry_ofValues {entries : List (Key × Value)} {short : Bool}
    (hkeys : ∀ p ∈ entries, ∀ n, p.1 = .int n → Legible n)
    (hvalues : ∀ p ∈ entries, ∀ e : Expr, e.erase = .ofValue short p.2 →
      ∃ node, e.toNode = .ok node ∧ node.toTerm.Denotes p.2) {es : List Entry}
    (hes : Entry.mapPosAll (fun _ => .start) es = Entry.ofValues short entries) :
    ∃ items, Entry.toNodes es = .ok items ∧
      List.Forall₂ Term.DenotesEntry (Datum.toTerms items) entries := by
  induction entries generalizing es with
  | nil =>
    cases es with
    | nil => exact ⟨[], rfl, .nil⟩
    | cons _ _ => cases hes
  | cons p rest ih =>
    obtain ⟨k, v⟩ := p
    obtain ⟨hk, hkeys⟩ := List.forall_mem_cons.1 hkeys
    obtain ⟨hv, hvalues⟩ := List.forall_mem_cons.1 hvalues
    cases es with
    | nil => cases hes
    | cons entry es =>
      obtain ⟨hentry, hes⟩ := List.cons.inj hes
      obtain ⟨items, hitems, hdenotes⟩ := ih hkeys hvalues hes
      cases entry with
      | item => cases hentry
      | keyed pos key value byRef =>
        obtain ⟨-, hkey, hvalue, rfl⟩ := Entry.keyed.inj hentry
        obtain ⟨keyNode, hkeyNode, hkeyDenotes⟩ := denotes_key hk hkey
        obtain ⟨node, hnode, hnodeDenotes⟩ := hv value hvalue
        refine ⟨.node (nodeAt pos "entry" [("key", .node keyNode), ("value", .node node),
          ("byref", .bool false)]) :: items, ?_, .cons ?_ hdenotes⟩
        · rw [Entry.toNodes, Entry.toNode, hkeyNode, hnode, hitems]
          rfl
        · exact ⟨⟨"entry", pos.place, false⟩, _, _, rfl, rfl, hkeyDenotes, hnodeDenotes⟩

/-- The expression of a plain value denotes it, wherever its parts stand. -/
theorem denotes_value {v : Value} {short : Bool} (h : v.Plain) {e : Expr}
    (he : e.erase = .ofValue short v) :
    ∃ node, e.toNode = .ok node ∧ node.toTerm.Denotes v := by
  induction h generalizing e with
  | null =>
    cases e with
    | null pos => exact ⟨_, rfl, denotes_literal rfl rfl⟩
    | _ => cases he
  | bool b =>
    cases e with
    | boolean pos value =>
      obtain rfl : value = b := (Expr.boolean.inj he).2
      refine ⟨_, rfl, denotes_literal rfl ?_⟩
      cases value <;> rfl
    | _ => cases he
  | int hn => exact denotes_integer hn he
  | string s => exact denotes_string he
  | @array t hordered hkeys hplain ih =>
    obtain ⟨entries, next⟩ := t
    cases e with
    | array pos short' es =>
      obtain ⟨-, -, hes⟩ := Expr.array.inj he
      have hlegible : ∀ p ∈ entries, ∀ n, p.1 = .int n → Legible n :=
        fun p hp n hn => hkeys n (hn ▸ Assoc.mem_keys_of_mem hp)
      obtain ⟨items, hitems, hdenotes⟩ :=
        denotesEntry_ofValues hlegible (fun p hp e => ih p hp) hes
      refine ⟨nodeAt pos "array" [("items", .list items), ("shortForm", .bool short')], ?_, rfl,
        rfl, fun m => ?_⟩
      · rw [Expr.toNode, hitems]
        rfl
      · have hterm : (nodeAt pos "array"
            [("items", .list items), ("shortForm", .bool short')]).toTerm =
              .array ⟨"array", pos.place, false⟩ true (Datum.toTerms items) := rfl
        have hnormal : ∀ p ∈ entries, p.1.Normal :=
          fun p hp => hordered.normal _ (Assoc.mem_keys_of_mem hp)
        have hdefined : ∀ p ∈ entries, p.2.defined = p.2 := fun p hp => (hplain p hp).defined
        have hread : some Intent.read ≠ some .write := by decide
        simp only [hterm, Term.eval, ends_bind, ends_writable hread, listed, if_true, ends_pure]
        refine (ends_evalItems hdenotes hnormal hdefined).mono ?_ fun _ _ hf => hf
        rintro _ _ ⟨rfl, rfl⟩
        rw [hordered.setAll_empty]
        rfl
    | _ => cases he

/-! ## Assigning a literal -/

mutual

theorem Expr.erase_ofValue (short : Bool) : ∀ v, (Expr.ofValue short v).erase = .ofValue short v
  | .array ⟨entries, _⟩ =>
    congrArg (Expr.array .start short) (Entry.mapPosAll_ofValues short entries)
  | .number (.int n) => by
    simp only [Expr.ofValue, Expr.integer]
    split <;> rfl
  | .undefined | .null | .bool _ | .number (.float _) | .string _ | .object .. => rfl

theorem Entry.mapPosAll_ofValues (short : Bool) : ∀ entries,
    Entry.mapPosAll (fun _ => .start) (Entry.ofValues short entries) = Entry.ofValues short entries
  | [] => rfl
  | (k, v) :: rest => by
    have hkey : (Expr.ofKey k).erase = .ofKey k := by
      cases k with
      | int n =>
        simp only [Expr.ofKey, Expr.integer]
        split <;> rfl
      | str s => rfl
    have hvalue := Expr.erase_ofValue short v
    have hrest := Entry.mapPosAll_ofValues short rest
    rw [Expr.erase] at hkey hvalue
    rw [Entry.ofValues, Entry.mapPosAll, Entry.mapPos, hkey, hvalue, hrest]

end

/-- The text that assigns an expression to the variable. -/
def assignment (text : String) : String := "$r = " ++ text ++ ";"

theorem parse_assignment {text : String} {e : Expr} (h : Shows text e) :
    ∃ program pos e', parse (assignment text) = .ok program ∧
      program.statements = [.expression pos e'] ∧
      e'.erase = (Expr.assign .start .plain (.variable .start "r") e).erase := by
  obtain ⟨texts, hreads, hlaid⟩ := h
  have hspells : Terminal.variable.Spells ("$" ++ "r") :=
    ⟨"$r".toList, by decide +kernel, by decide +kernel⟩
  have htoken : IsToken ("$" ++ "r") := isToken_of_first fun _ => hspells.first?_variable
  have hop : AssignOp.plain.Sound := trivial
  have hall : Reads 0 (["$" ++ "r"] ++ "=" :: texts)
      (.assign .start .plain (.variable .start "r") e) :=
    Reads.assign hop (by decide) (reads_variable hspells) (hreads assignLevel (by decide))
  have hsemicolon : Layout [";"] ";".toList := .token (Terminal.lexes_bracket (by decide) []) .nil
  have hvalue : Layout (texts ++ [";"]) (' ' :: (text.toList ++ ";".toList)) :=
    .space rfl (hlaid _ _ hsemicolon rfl)
  have hequals : Layout ("=" :: (texts ++ [";"]))
      (' ' :: ("=".toList ++ ' ' :: (text.toList ++ ";".toList))) :=
    .space rfl (.token (isToken_of_mem (by decide +kernel) _ rfl) hvalue)
  have hlayout := htoken.laidOut _ _ hequals rfl
  refine parse_statement hall ?_
  simpa [assignment] using hlayout

/-- The tree of an assignment of a literal: one statement, and its value denotes the literal's. -/
theorem tree_assignment {text : String} {v : Value} {short : Bool} (hv : v.Plain)
    (h : Shows text (.ofValue short v)) :
    ∃ n head inner outer target t, tree (assignment text) = .ok n ∧
      n.toTerm = .program head true
        [.statement outer (.assign inner (.string "=") (.variable target (.string "r")) t)] ∧
      t.Denotes v := by
  obtain ⟨program, pos, e', hparse, hstatements, herase⟩ := parse_assignment h
  cases e' with
  | assign pos' op target value =>
    obtain ⟨-, rfl, htarget, hvalue⟩ := Expr.assign.inj herase
    cases target with
    | «variable» pos'' name =>
      obtain ⟨-, rfl⟩ := Expr.variable.inj htarget
      obtain ⟨node, hnode, hdenotes⟩ := denotes_value hv (hvalue.trans (Expr.erase_ofValue short v))
      obtain ⟨stmt, hns, hstmt⟩ : ∃ stmt, program.statements.mapM Stmt.toNode = .ok [stmt] ∧
          stmt = nodeAt pos "expressionstatement" [("expression", .node (nodeAt pos' "assign"
            [("left", .node (variableNode pos'' "r")), ("right", .node node),
              ("operator", .string "=")]))] := by
        refine ⟨_, ?_, rfl⟩
        rw [hstatements, List.mapM_cons, Stmt.toNode, Expr.toNode, hnode]
        rfl
      obtain ⟨n, hn⟩ : ∃ n, program.toNode = .ok n := by
        rw [Program.toNode, hns]
        cases program.pos? <;> exact ⟨_, rfl⟩
      obtain ⟨head, ns, hns', -, hterm⟩ := Program.toTerm_toNode hn
      obtain rfl := Except.ok.inj (hns.symm.trans hns')
      subst hstmt
      refine ⟨n, head, _, _, _, node.toTerm, ?_, hterm, hdenotes⟩
      rw [tree, hparse]
      exact hn
    | _ => cases htarget
  | _ => cases herase

end Source

/-! ## Running the assignment -/

namespace Environment

variable {e : Environment} {i : Int} {name : String} {l : Location} {v : Value}

theorem Names.written (h : e.Names i name l) (target : Location) (v : Value) :
    (Scoped.written target v e).Names i name l := by
  obtain ⟨s, hs, hname, howner, hpath, hchar⟩ := h
  refine ⟨if target.scope = i then
    { s with cells := Assoc.modify target.slot (fun _ => v) s.cells } else s,
    ?_, ?_, howner, hpath, hchar⟩
  · rw [Scoped.written, scope?_modifyScope, hs]
    split <;> rfl
  · split <;> exact hname

/-- A value assigned to a variable is there. -/
def Binds (e : Environment) (name : String) (v : Value) : Prop :=
  ∃ l, (Scoped.lookup name none).run.run e = (.ok (some l), e) ∧ e.load l = v

theorem Names.binds (h : e.Names e.current name l) (hv : e.load l = v) : e.Binds name v := by
  refine ⟨l, ?_, hv⟩
  have hlookup := lookup_of_names h
  exact hlookup

theorem ends_store_names (h : Consistent e) (hn : e.Names e.current name l) (v : Value) :
    Ends (Scoped.store l v) e (fun _ e' => e'.Binds name v) fun _ _ => False := by
  have hvalid := h.toLinked.valid_of_names hn
  obtain ⟨old, hcell, -, -⟩ := hvalid
  obtain ⟨s, hs, hslot⟩ := Option.bind_eq_some_iff.1 hcell
  obtain ⟨-, -, -, -, hpath, hchar⟩ := id hn
  have hset : old.setAt? l.path v = some v := by simp [hpath, Value.setAt?]
  have hwritten : (Scoped.written l v e).Binds name v := by
    apply Names.binds (hn.written l v)
    rw [load_eq (cell?_written hcell) hchar, hpath, Value.descend]
  rw [Scoped.ends_store]
  simp only [hchar, hs, hslot, hset, Option.isSome_none, Bool.false_eq_true, false_implies,
    forall_const, reduceCtorEq, Option.some.injEq, forall_eq', true_and]
  exact hwritten

end Environment

namespace Run

theorem ends_clearing_returns {α : Type} {act : Run α} {m : Machine} {R : α → Machine → Prop}
    {F : Fault → Machine → Prop} (h : Ends act m R fun _ _ => False) :
    Ends (clearing act) m R F := by
  obtain ⟨a, m', hr, hR⟩ := h.returns
  have hrun : act m = (.ok a, m') := hr
  simp only [Ends, clearing, ExceptT.run, ExceptT.mk, StateT.run, hrun]
  exact hR

/-- Assigning a term that denotes a value. -/
theorem ends_assignment {outer inner target : Head} {t : Term} {v : Value} {m : Machine}
    (ht : t.Denotes v) (hv : v.defined = v) (hm : m.env.Consistent) (hstack : m.stack = []) :
    Ends (statement (.statement outer
        (.assign inner (.string "=") (.variable target (.string "r")) t))) m
      (fun w m' => w = v ∧ m'.log = m.log ∧ m'.output = m.output ∧ m'.env.Binds "r" v)
      fun _ _ => False := by
  have hopen : m.env.Unreleased ((none : Option Int).getD m.env.current) :=
    hm.current_open.unreleased
  have hdeclare : Ends (Scoped.declare "r" none) m.env
      (fun l e => e.Consistent ∧ e.Names e.current "r" l) fun _ _ => False := by
    refine (Scoped.ends_declare_consistent hm hopen).mono ?_ ?_
    · rintro l e ⟨hsteps, hnames, hcurrent⟩
      exact ⟨hsteps.consistent, hcurrent ▸ hnames⟩
    · rintro - _ ⟨rfl, hnone⟩
      exact hm.current_open.scope?_ne_none hnone
  have hforeign : t ≠ .foreign := by
    rintro rfl
    exact ht.eval default
  have hassign : Ends (Term.eval (.assign inner (.string "=") (.variable target (.string "r")) t)
      none) { m with stack := [] } (fun _ m' => (∃ l, m'.stack = [.value ⟨v, some l⟩]) ∧
        m'.log = m.log ∧ m'.output = m.output ∧ m'.env.Binds "r" v) fun _ _ => False := by
    have hplain : isPlain (.string "=") = true := by decide
    have habsent : (Term.variable target (.string "r")).isAbsent = false := rfl
    simp only [Term.eval, ends_bind, ends_writable (by decide : none ≠ some Intent.write), hplain,
      if_true, ht.unmarked, Bool.false_eq_true, if_false]
    simp only [assignBody, ends_bind, ends_pushPending, ht.present, habsent,
      Bool.false_eq_true, if_false]
    refine ht.ends_resume rfl ?_
    have hname : variableName (.string "r") = pure "r" := by
      simp only [variableName, Datum.string]
      rw [if_neg (by decide), if_neg (by decide)]
    rw [ends_popView rfl, resume, ends_bind, ends_pop rfl]
    simp only [View.fresh, ends_bind, within, Term.head?,
      variableBody, hname, ends_located, ends_pure, ends_inScope]
    refine hdeclare.mono ?_ fun _ _ hf => hf
    rintro l e ⟨hconsistent, hnames⟩
    obtain ⟨-, -, -, -, -, hchar⟩ := id hnames
    rw [ends_pushLocation, ends_popLocation rfl]
    simp only [writeTo, hchar, hv, ends_bind, store, ends_inScope, ends_modify, ends_pure,
      ends_pushView]
    refine (Environment.ends_store_names hconsistent hnames v).mono ?_ fun _ _ hf => hf
    rintro - e' hbinds
    exact ⟨⟨l, rfl⟩, trivial, trivial, hbinds⟩
  simp only [statement, ends_bind, ends_pushPending, Term.isAbsent, Bool.false_eq_true, if_false,
    hstack]
  refine ends_clearing_returns ?_
  rw [evaluate, ends_bind, ends_bind, ends_pop rfl]
  simp only [within, Term.head?, ends_located]
  rw [Term.eval, statementBody]
  refine hassign.mono ?_ fun _ _ hf => hf
  rintro - m' ⟨⟨l, hstack'⟩, hlog, houtput, hbinds⟩
  rw [ends_bind, ends_popView hstack']
  simp only [ends_pure, ends_get, List.length_nil, if_true, hv]
  exact ⟨trivial, hlog, houtput, hbinds⟩

end Run

/-- The text of a plain value, rendered or displayed, is assigned to a variable: the text has a
tree, and wherever it is run, it leaves the value itself in the variable, without a remark. -/
theorem run_readback {v : Value} {text : String} {m : Machine} (hv : v.Plain)
    (htext : text = v.render 0 ∨ text = v.display) (hm : m.env.Consistent) (hstack : m.stack = []) :
    ∃ n m' w, Source.tree ("$r = " ++ text ++ ";") = .ok n ∧ n.run m = (.ok v, m') ∧
      m'.log = m.log ∧ m'.output = m.output ∧ m'.env.Binds "r" w ∧ w = v ∧
      Value.identical w v = .ok true := by
  obtain ⟨short, hshows⟩ : ∃ short, Source.Shows text (.ofValue short v) := by
    rcases htext with rfl | rfl
    · exact ⟨false, Source.shows_render hv 0⟩
    · exact ⟨true, Source.shows_display hv⟩
  obtain ⟨n, head, inner, outer, target, t, htree, hterm, ht⟩ := Source.tree_assignment hv hshows
  have hrun : Ends (program n.toTerm) m
      (fun w m' => w = v ∧ m'.log = m.log ∧ m'.output = m.output ∧ m'.env.Binds "r" v)
      fun _ _ => False := by
    simp only [hterm, program, listed, if_true, statements, ends_bind, ends_pure]
    exact ends_assignment ht hv.defined hm hstack
  obtain ⟨_, m', hreturns, rfl, hlog, houtput, hbinds⟩ := hrun.returns
  exact ⟨n, m', _, htree, hreturns, hlog, houtput, hbinds, rfl, hv.identical_self⟩

/-- An array of plain values, set one after the other. -/
theorem Value.Plain.ofEntries {entries : List (Key × Value)} (hnodup : (Assoc.keys entries).Nodup)
    (h : ∀ p ∈ entries, p.1.Normal ∧ (∀ n, p.1 = .int n → Legible n) ∧ p.2.Plain) :
    (Value.array (Table.empty.setAll entries)).Plain := by
  have hnormal : ∀ k ∈ Assoc.keys entries, k.Normal := by
    intro k hk
    obtain ⟨p, hp, rfl⟩ := List.mem_map.1 hk
    exact (h p hp).1
  obtain ⟨hordered, hentries⟩ := Table.ordered_empty.setAll hnormal hnodup
  refine .array hordered (fun n hn => ?_) fun p hp => ?_
  · rw [Table.keys, hentries] at hn
    obtain ⟨p, hp, hkey⟩ := List.mem_map.1 hn
    exact (h p hp).2.1 n hkey
  · rw [hentries] at hp
    exact (h p hp).2.2

/-- A negative key, a quote and a backslash in a text, an array inside another one. -/
def mixedTable : Table Value :=
  Table.empty.setAll [(.int (-3), .string "it's \\"),
    (.str "k", .array (Table.empty.setAll [(.int 0, .null)])), (.int 5, .bool true),
    (.str "", .int (-9223372036854775807))]

theorem plain_mixedTable : (Value.array mixedTable).Plain := by
  have hinner : (Value.array (Table.empty.setAll [(.int 0, .null)])).Plain := by
    refine .ofEntries (by decide) ?_
    simp [Key.normal_int, Legible, minInt, maxInt, Value.Plain.null]
  have hempty : (Key.str "").Normal := rfl
  have hname : (Key.str "k").Normal := rfl
  have hleast : (Value.int (-9223372036854775807)).Plain := .int ⟨by decide, by decide⟩
  refine .ofEntries (by decide) ?_
  simp [Key.normal_int, Legible, minInt, maxInt, hinner, hempty, hname, hleast, Value.Plain.string,
    Value.Plain.bool]

/-- The display form of that array, read back by a new machine. -/
theorem run_readback_mixed :
    (Value.array mixedTable).display =
        "[-3 => 'it\\'s \\\\', 'k' => [0 => NULL], 5 => true, '' => -9223372036854775807]" ∧
      mixedTable.next = 6 ∧
      ∃ n m' w, Source.tree ("$r = " ++ (Value.array mixedTable).display ++ ";") = .ok n ∧
        n.run .init = (.ok (.array mixedTable), m') ∧ m'.log = [] ∧ m'.env.Binds "r" w ∧
        w = .array mixedTable := by
  refine ⟨by decide +kernel, rfl, ?_⟩
  obtain ⟨n, m', w, htree, hrun, hlog, -, hbinds, hw, -⟩ :=
    run_readback plain_mixedTable (.inr rfl) Environment.consistent_init (m := .init) rfl
  exact ⟨n, m', w, htree, hrun, hlog, hbinds, hw⟩

end PhpInterpreter
