import PhpInterpreter.Proofs.Machine.Frame

/-!
Places within a contract: going down to array elements and characters leads to places again, and
writing to one keeps the contract.
-/

namespace PhpInterpreter

/-- The text of a variable's name. -/
def Datum.IsName (d : Datum) : Prop := ∃ s, d = .scalar (.string s) ∧ s ≠ "" ∧ s ≠ "$"

namespace Contract

open Environment Run

variable {K : Contract} {α : Type} {m₀ m : Machine} {frame : Frame} {n : Nat} {l : Location}
  {v : Value}

theorem At.variableName {name : Datum} {R : String → Machine → Prop} (h : K.At m₀ frame n m)
    (hname : K.strict → name.IsName) (hR : ∀ s, R s m) :
    Ends (variableName name) m R (K.Stop m₀) := by
  unfold Run.variableName
  split
  · exact h.fatal _
  · split
    · rename_i hempty
      refine h.breach (fun hs => ?_) _
      obtain ⟨s, heq, hne⟩ := hname hs
      obtain rfl : _ = s := by simpa using heq
      exact hempty.elim hne.1 hne.2
    · exact hR _
  · rename_i hnode hstring
    refine h.breach (fun hs => ?_) _
    obtain ⟨s, rfl, -⟩ := hname hs
    exact hstring s rfl

/-! ## Going down -/

theorem keys_child {k : Key} (hkeys : ¬ K.strict → ∀ k ∈ l.path, K.key k)
    (hk : ¬ K.strict → K.key k) : ¬ K.strict → ∀ x ∈ (l.child k).path, K.key x := by
  intro hs x hx
  rcases List.mem_append.1 hx with hx | hx
  · exact hkeys hs x hx
  · exact List.mem_singleton.1 hx ▸ hk hs

theorem admits_child {e : Environment} {k : Key} (hkeys : ¬ K.strict → ∀ k ∈ l.path, K.key k)
    (hk : K.key k) : K.Admits e (l.child k) where
  keys := keys_child hkeys fun _ => hk
  leads _ c _ := leads_of_key hk c

/-- The next element of an array can be set. -/
theorem admits_next {e : Environment} {t : Table Value}
    (hkeys : ¬ K.strict → ∀ k ∈ l.path, K.key k)
    (harray : K.strict → ∃ v, e.cell? l = some v ∧ v.descend l.path = .array t) :
    K.Admits e (l.child (.int t.next)) where
  keys := keys_child hkeys fun hs => (K.loose hs).2 _
  leads hs c hc := by
    obtain ⟨v, hv, ht⟩ := harray hs
    obtain rfl : v = c := Option.some.inj (hv.symm.trans hc)
    exact leads_next ht

theorem Admits.place_child {e : Environment} {k : Key} (h : K.Admits e (l.child k))
    (hvalid : K.strict → e.Valid (l.child k)) : K.Place e (l.child k) where
  toAdmits := h
  named := by simp [Location.child]
  valid := hvalid

/-- An element that was made can be set again. -/
theorem Admits.made {e e' : Environment} {k : Key} (h : K.Admits e (l.child k))
    (hnew : K.strict → ∃ new, e'.cell? (l.child k) = some new ∧
      new.descend (l.child k).path = .null) : K.Admits e' (l.child k) where
  keys := h.keys
  leads hs c hc := by
    obtain ⟨new, hcell, hnull⟩ := hnew hs
    obtain rfl : new = c := Option.some.inj (hcell.symm.trans hc)
    have hfound : new.descend (l.path ++ [k]) ≠ .undefined := by
      rw [show l.path ++ [k] = (l.child k).path from rfl, hnull]
      nofun
    exact leads_of_found hfound

/-- An element of an array can be set. -/
theorem valid_child {e : Environment} {t : Table Value} (hc : e.cell? l = some v)
    (hchar : l.char? = none) (ht : v.descend l.path = .array t) (k : Key) : e.Valid (l.child k) :=
  ⟨v, hc, Value.settable_concat ht k, by simp [Location.child, hchar]⟩

theorem At.element {t : Table Value} {key? : Option Key} {R : Location → Machine → Prop}
    (h : K.At m₀ frame n m) (hkeys : ¬ K.strict → ∀ k ∈ l.path, K.key k) (hchar : l.char? = none)
    (harray : K.strict → ∃ v, m.env.cell? l = some v ∧ v.descend l.path = .array t)
    (hkey : ∀ k, key? = some k → K.key k)
    (hR : ∀ l' m', K.At m₀ frame n m' → K.Place m'.env l' → R l' m') :
    Ends (element t l key?) m R (K.Stop m₀) := by
  have hvalid : ∀ k, K.strict → m.env.Valid (l.child k) := by
    intro k hs
    obtain ⟨v, hc, ht⟩ := harray hs
    exact valid_child hc hchar ht k
  -- A missing element is made by a store of null, after which it is a place.
  have hmake : ∀ k, K.Admits m.env (l.child k) →
      Ends (do Run.store (l.child k) .null; return l.child k) m R (K.Stop m₀) := by
    intro k hk
    simp only [ends_bind, ends_pure]
    refine h.store K.null hk (fun hs => ⟨hvalid k hs, hchar⟩) fun m' h' hnew => hR _ m' h' ?_
    exact (hk.made fun hs => (hnew hs).2).place_child fun hs => (hnew hs).1
  unfold Run.element
  split
  · exact hmake _ (admits_next hkeys harray)
  · rename_i k
    have hk : K.Admits m.env (l.child k) := admits_child hkeys (hkey k rfl)
    split
    · exact hmake k hk
    · exact hR _ m h (hk.place_child (hvalid k))

theorem At.character {level : Level} {s : String} {R : Location → Machine → Prop}
    (h : K.At m₀ frame n m) (hl : K.Admits m.env l) (hvalid : K.strict → m.env.Valid l)
    (hstring : K.strict → ∃ v, m.env.cell? l = some v ∧ v.descend l.path = .string s)
    (hR : ∀ l' m', K.At m₀ frame n m' → K.Place m'.env l' → R l' m') :
    Ends (character level l s) m R (K.Stop m₀) := by
  -- Remarks do not change the environment, so the place found is one of the last machine too.
  have hfinish : ∀ (offset position : Int) (m' : Machine), K.At m₀ frame n m' → m'.env = m.env →
      Ends (do
        if position < 0 then
          Run.noting level.place.line false
            (Noting.mention false ((integerText offset).map .offsetBeforeStart))
        return l.atChar position) m' R (K.Stop m₀) := by
    intro offset position m' h' henv
    have hplace : ∀ m'', m''.env = m'.env → K.Place (Machine.env m'') (l.atChar position) := by
      intro m'' henv'
      refine ⟨⟨hl.keys, fun hs c hc => ?_⟩, by simp [Location.atChar], fun hs => ?_⟩
      · rw [henv', henv] at hc
        exact hl.leads hs c hc
      rw [henv', henv]
      obtain ⟨v, hc, hset, -⟩ := hvalid hs
      obtain ⟨w, hw, htext⟩ := hstring hs
      obtain rfl : v = w := by simpa [hc] using hw
      exact ⟨v, hc, hset, fun _ => ⟨s, htext⟩⟩
    split
    · simp only [ends_bind, ends_pure]
      exact h'.mention ((limited_integerText offset).map fun _ _ => trivial) _ _
        fun m'' h'' henv' => hR _ m'' h'' (hplace m'' henv')
    · exact hR _ m' h' (hplace m' rfl)
  unfold Run.character
  split
  · exact h.fatal _
  · split
    · exact h.fatal _
    · rename_i key _
      cases key with
      | int k =>
        simp only [ends_bind, ends_pure]
        exact hfinish k _ m h rfl
      | str k =>
        simp only [ends_bind, ends_pure]
        exact h.remark _ _ _ fun m' h' henv => hfinish 0 _ m' h' henv

theorem At.descend {level : Level} {l? : Option Location} {R : Option Location → Machine → Prop}
    (h : K.At m₀ frame n m) (hl : ∀ l, l? = some l → K.Place m.env l)
    (hkey : ∀ k, level.key? = some k → K.key k)
    (hR : ∀ l? m', K.At m₀ frame n m' → (∀ l, l? = some l → K.Place m'.env l) → R l? m') :
    Ends (descend level l?) m R (K.Stop m₀) := by
  have hfound : ∀ l' m', K.At m₀ frame n m' → K.Place (Machine.env m') l' → R (some l') m' := by
    intro l' m' h' hp
    refine hR _ m' h' ?_
    rintro _ ⟨⟩
    exact hp
  unfold Run.descend
  split
  · exact hR none m h nofun
  · rename_i l
    have hp := hl l rfl
    split
    · exact h.fatal _
    · rename_i hchar
      have hchar : l.char? = none := by simpa using hchar
      have hload : K.strict → ∃ v, m.env.cell? l = some v ∧ m.env.load l = v.descend l.path := by
        intro hs
        obtain ⟨v, hc, -⟩ := hp.valid hs
        exact ⟨v, hc, load_eq hc hchar⟩
      simp only [ends_bind, ends_load]
      split
      case h_1 | h_2 =>
        simp only [ends_bind, ends_pure]
        refine h.store K.empty hp.toAdmits (fun hs => ⟨hp.valid hs, hchar⟩) fun m' h' hnew => ?_
        exact h'.element hp.keys hchar (fun hs => (hnew hs).2) hkey hfound
      case h_3 t hcase =>
        simp only [ends_bind, ends_pure]
        refine h.element hp.keys hchar (fun hs => ?_) hkey hfound
        obtain ⟨v, hc, hv⟩ := hload hs
        exact ⟨v, hc, hv.symm.trans hcase⟩
      case h_4 | h_5 =>
        simp only [ends_bind, ends_pure]
        exact h.remark _ _ _ fun m' h' _ => hR none m' h' nofun
      case h_6 s hcase =>
        simp only [ends_bind, ends_pure]
        refine h.character hp.toAdmits hp.valid (fun hs => ?_) hfound
        obtain ⟨v, hc, hv⟩ := hload hs
        exact ⟨v, hc, hv.symm.trans hcase⟩
      case h_7 => exact h.fatal _

/-- The keys of levels are keys of the contract. -/
def Levels (K : Contract) (levels : List Level) : Prop :=
  ∀ level ∈ levels, ∀ k, level.key? = some k → K.key k

theorem At.descendAll {levels : List Level} {l? : Option Location}
    {R : Option Location → Machine → Prop} (h : K.At m₀ frame n m)
    (hl : ∀ l, l? = some l → K.Place m.env l) (hkeys : K.Levels levels)
    (hR : ∀ l? m', K.At m₀ frame n m' → (∀ l, l? = some l → K.Place m'.env l) → R l? m') :
    Ends (descendAll levels l?) m R (K.Stop m₀) := by
  induction levels generalizing l? m with
  | nil => exact hR l? m h hl
  | cons level rest ih =>
    simp only [Run.descendAll, ends_bind]
    refine ends_located_stop _ (h.descend hl (hkeys level List.mem_cons_self) ?_)
    intro l? m' h' hl'
    exact ih h' hl' fun level' hin => hkeys level' (List.mem_cons_of_mem level hin)

/-! ## Writing and reading -/

theorem At.writeCharacter {line : Json} {offset : Int} {R : Value → Machine → Prop}
    (h : K.At m₀ frame n m) (hl : K.Place m.env l) (hchar : l.char? = some offset)
    (hR : ∀ w m', K.At m₀ frame n m' → K.value w → R w m') :
    Ends (writeCharacter line l offset v) m R (K.Stop m₀) := by
  have hvalid : ∀ m', m'.env = m.env → K.strict → (Machine.env m').Valid l.container := by
    intro m' henv hs
    rw [henv]
    obtain ⟨w, hc, hset, -⟩ := hl.valid hs
    exact ⟨w, hc, hset, by simp [Location.container]⟩
  unfold Run.writeCharacter
  split
  · exact hR _ m h K.null
  · simp only [ends_bind, ends_load]
    split
    · rename_i s _
      rw [ends_bind]
      refine h.noting (notes_toText v) _ _ fun text m' h' henv _ => ?_
      split
      · exact h'.fatal _
      · rename_i c more _
        -- Whether a remark was made or not, the rest is the same.
        have hwrite : ∀ m', K.At m₀ frame n m' → m'.env = m.env →
            Ends (do
              if maxInt < offset then Run.crash .outOfRange
              else
                Run.store l.container (.string (String.ofList (writeAt s.toList offset.toNat c)))
                return .string c.toString) m' R (K.Stop m₀) := by
          intro m' h' henv
          split
          · exact h'.stop (K.limit (.inl rfl))
          · simp only [ends_bind, ends_pure]
            have hadmits : K.Admits m'.env l.container := by
              rw [henv]
              exact ⟨hl.keys, hl.leads⟩
            refine h'.store (K.string _) hadmits (fun hs => ⟨hvalid m' henv hs, rfl⟩) ?_
            exact fun m'' h'' _ => hR _ m'' h'' (K.string _)
        split
        · simp only [ends_bind]
          exact h'.remark _ _ _ fun m'' h'' henv' => hwrite m'' h'' (henv'.trans henv)
        · exact hwrite m' h' henv
    · rename_i hother
      refine h.breach (fun hs => ?_) _
      obtain ⟨w, hc, -, hstring⟩ := hl.valid hs
      obtain ⟨s, hs'⟩ := hstring (by simp [hchar])
      have hc' : m.env.cell? l.container = some w := hc
      exact hother s ((load_eq hc' rfl).trans hs')

theorem At.writeTo {line : Json} {l? : Option Location} {R : View → Machine → Prop}
    (h : K.At m₀ frame n m) (hl : ∀ l, l? = some l → K.Place m.env l) (hv : K.value v)
    (hR : ∀ w m', K.At m₀ frame n m' → K.Seen m'.env w → R w m') :
    Ends (writeTo line l? v) m R (K.Stop m₀) := by
  unfold Run.writeTo
  split
  · exact hR _ m h (seen_fresh (.inr K.null) _)
  · rename_i l
    have hp := hl l rfl
    split
    · rename_i offset hchar
      simp only [ends_bind, ends_pure]
      exact h.writeCharacter hp hchar fun w m' h' hw => hR _ m' h' (seen_fresh (.inr hw) _)
    · rename_i hchar
      simp only [ends_bind, ends_pure]
      refine h.store hv hp.toAdmits (fun hs => ⟨hp.valid hs, hchar⟩) fun m' h' hnew => ?_
      refine hR _ m' h' ⟨.inr hv, fun hs => ?_⟩
      obtain ⟨new, hcell, hfound⟩ := (hnew hs).2
      have hload := View.current_load (h'.env.consistent hs) l
      rwa [load_eq hcell hchar, hfound] at hload

theorem At.peekAll {levels : List Level} {view : View} {R : View → Machine → Prop}
    (h : K.At m₀ frame n m) (hv : K.Seen m.env view)
    (hR : ∀ w m', K.At m₀ frame n m' → K.Seen m'.env w → R w m') :
    Ends (peekAll levels view) m R (K.Stop m₀) := by
  induction levels generalizing view m with
  | nil => exact hR view m h hv
  | cons level rest ih =>
    unfold Run.peekAll
    split
    · exact h.fatal _
    · rename_i k _
      split
      · rename_i t ht
        split
        · rename_i w hw
          exact ih h (hv.child ht hw)
        · exact ih h (seen_fresh K.read_undefined _)
      · simp only [ends_bind]
        exact h.noting (notes_charAt _ _ _) _ _ fun c m' h' _ hc => ih h' (seen_fresh hc _)
      · exact h.fatal _
      · exact ih h (seen_fresh K.read_undefined _)

end Contract

end PhpInterpreter
