import PhpInterpreter.Proofs.Scope.Binding
import PhpInterpreter.Proofs.Scope.Contents
import PhpInterpreter.Proofs.Value.Path

/-!
Views of arrays. A view that follows the writes shows what is stored: as long as the slot of its
home is there, an array that is seen in a view is the array at its home. Evaluation keeps this for
the views it makes, so a write below the home of a view finds the same arrays in the view.
-/

namespace PhpInterpreter

namespace Value

variable {v w new : Value} {path rest : List Key}

/-- A write below a path is a write into what is under the path. -/
theorem setAt?_append (h : v.setAt? (path ++ rest) new = some w) :
    (v.descend path).setAt? rest new = some (w.descend path) := by
  induction path generalizing v w with
  | nil =>
    rw [List.nil_append] at h
    rwa [descend, descend]
  | cons k path ih =>
    cases v with
    | array t =>
      rw [List.cons_append] at h
      cases hrest : path ++ rest with
      | nil =>
        obtain ⟨rfl, rfl⟩ := List.append_eq_nil_iff.1 hrest
        obtain rfl : array (t.set k new) = w := by simpa [setAt?] using h
        simp [descend, setAt?, Table.get?_set]
      | cons k' inner =>
        rw [hrest] at h
        simp only [setAt?, Option.bind_eq_bind, Option.bind_eq_some_iff] at h
        obtain ⟨old, hold, made, hmade, hw⟩ := h
        obtain rfl : array (t.replace k made) = w := by simpa using hw
        rw [descend, descend, hold, get?_replace hold]
        exact ih (by rwa [hrest])
    | _ => simp [setAt?] at h

/-- A write changes nothing beside its path. -/
theorem descend_setAt?_of_beside {q : List Key} (h : v.setAt? path new = some w)
    (hq : ¬ q <+: path) (hpath : ¬ path <+: q) : w.descend q = v.descend q := by
  induction path generalizing v w q with
  | nil => exact absurd List.nil_prefix hpath
  | cons k path ih =>
    cases q with
    | nil => exact absurd List.nil_prefix hq
    | cons k' q =>
      cases v with
      | array t =>
        by_cases hk : k' = k
        · subst hk
          rw [List.prefix_cons_inj] at hq hpath
          cases path with
          | nil => exact absurd List.nil_prefix hpath
          | cons k'' path =>
            simp only [setAt?, Option.bind_eq_bind, Option.bind_eq_some_iff] at h
            obtain ⟨old, hold, made, hmade, hw⟩ := h
            obtain rfl : array (t.replace k' made) = w := by simpa using hw
            rw [descend, descend, hold, get?_replace hold]
            exact ih hmade hq hpath
        · have hother : ∃ u : Table Value, w = array u ∧ u.get? k' = t.get? k' := by
            cases path with
            | nil =>
              obtain rfl : array (t.set k new) = w := by simpa [setAt?] using h
              exact ⟨_, rfl, by rw [Table.get?_set, if_neg (Ne.symm hk)]⟩
            | cons k'' path =>
              simp only [setAt?, Option.bind_eq_bind, Option.bind_eq_some_iff] at h
              obtain ⟨old, hold, made, hmade, hw⟩ := h
              obtain rfl : array (t.replace k made) = w := by simpa using hw
              exact ⟨_, rfl, Table.get?_replace_of_ne hk made t⟩
          obtain ⟨u, rfl, hget⟩ := hother
          rw [descend, descend, hget]
      | _ => simp [setAt?] at h

end Value

namespace Environment

variable {e e' : Environment} {l : Location} {v w : Value}

theorem Linked.every_iff (h : Linked e) {slot : Int} {P : Value → Prop} :
    e.Every (fun x v => x = slot → P v) ↔ ∀ i v, e.value? i slot = some v → P v := by
  constructor
  · intro hevery i v hv
    obtain ⟨s, hs, hslot⟩ := Option.bind_eq_some_iff.1 hv
    exact hevery _ (Assoc.mem_of_get? hs) _ (Assoc.mem_of_get? hslot) rfl
  · rintro hvalue ⟨i, s⟩ hp ⟨x, v⟩ hc rfl
    have hs := (mem_scopes_iff h.scopes_nodup).1 hp
    refine hvalue i v ?_
    rw [value?, hs]
    exact Assoc.get?_of_mem (h.fits i s hs).cells_nodup hc

/-- One cell is written. -/
theorem exists_of_store (h : (Scoped.store l v).run.run e = (.ok (), e')) :
    l.char? = none ∧ ∃ old new, e.cell? l = some old ∧ old.setAt? l.path v = some new ∧
      e' = Scoped.written l new e := by
  have hends : Ends (Scoped.store l v) e (fun _ e' => l.char? = none ∧ ∃ old new,
      e.cell? l = some old ∧ old.setAt? l.path v = some new ∧ e' = Scoped.written l new e)
      fun _ _ => True := by
    rw [Scoped.ends_store]
    refine ⟨fun _ => trivial, fun hchar => ⟨fun _ => trivial, fun s hs => ⟨fun _ => trivial, ?_⟩⟩⟩
    refine fun old hold => ⟨fun _ => trivial, fun new hnew => ⟨hchar, old, new, ?_, hnew, rfl⟩⟩
    rw [cell?, hs]
    exact hold
  exact hends.of_ok h

/-- Only one cell has the slot of the location. -/
theorem Linked.value?_written (h : Linked e) {old new : Value} (hold : e.cell? l = some old)
    (i : Int) :
    (Scoped.written l new e).value? i l.slot = if l.scope = i then some new else none := by
  have hholds : e.Holds l.scope l.slot := holds_iff.2 ⟨old, hold⟩
  rw [Environment.value?_written]
  by_cases hi : l.scope = i
  · have hvalue : e.value? i l.slot = some old := hi ▸ hold
    simp [hi, hvalue]
  · cases hvalue : e.value? i l.slot with
    | none => simp [hi]
    | some d => exact absurd (Holds.unique h hholds (holds_iff.2 ⟨d, hvalue⟩)) hi

end Environment

namespace View

open Environment

variable {e e' : Environment} {l : Location} {x : Value} {v : View}

/-- An array that the view shows is the one at its home, as long as the slot is there. -/
def Current (e : Environment) (v : View) : Prop :=
  ∀ home t, v.home? = some home → v.value = .array t →
    home.slot < e.nextSlot ∧
      e.Every fun slot c => slot = home.slot → c.descend home.path = .array t

theorem current_fresh (e : Environment) (x : Value) : (fresh x).Current e := nofun

theorem current_load (h : Consistent e) (l : Location) : Current e ⟨e.load l, some l⟩ := by
  intro home t hhome ht
  obtain rfl := Option.some.inj hhome
  dsimp only at ht
  cases hc : e.cell? l with
  | none =>
    have hcell : (e.scope? l.scope).bind (fun s => Assoc.get? l.slot s.cells) = none := hc
    simp [load, hcell] at ht
  | some c =>
    have hchar : l.char? = none := by
      cases hchar : l.char? with
      | none => rfl
      | some n =>
        have hcell : (e.scope? l.scope).bind (fun s => Assoc.get? l.slot s.cells) = some c := hc
        simp only [load, hcell, hchar] at ht
        split at ht
        · cases ‹some n = none›
        · split at ht <;> cases ht
        · cases ht
    have hholds : e.Holds l.scope l.slot := holds_iff.2 ⟨c, hc⟩
    refine ⟨h.slot_lt _ _ hholds, h.every_iff.2 fun i d hd => ?_⟩
    obtain rfl := (holds_iff.2 ⟨d, hd⟩ : e.Holds i l.slot).unique h.toLinked hholds
    obtain rfl : d = c := Option.some.inj (hd.symm.trans hc)
    rwa [← load_eq hc hchar]

theorem Current.defined (h : v.Current e) : Current e ⟨v.value.defined, v.home?⟩ := by
  intro home t hhome ht
  refine h home t hhome ?_
  cases hv : v.value <;> simp_all [Value.defined]

/-- An element of an array that is shown is shown. -/
theorem Current.child {t : Table Value} {k : Key} (h : v.Current e) (hv : v.value = .array t)
    (hk : t.get? k = some x) : Current e ⟨x, v.home?.map (·.child k)⟩ := by
  intro home u hhome hx
  obtain ⟨above, habove, rfl⟩ := Option.map_eq_some_iff.1 hhome
  obtain ⟨hlt, hevery⟩ := h above t habove hv
  refine ⟨hlt, fun p hp c hc hslot => ?_⟩
  have harray := hevery p hp c hc hslot
  dsimp only at hx
  simp [Location.child, Value.descend_append, harray, Value.descend, hk, hx]

/-- Changes of names do not touch what is stored. -/
theorem Current.own {a : Action} (hc : Consistent e) (ha : a.Own e) (h : v.Current e) :
    v.Current (a.apply e) := by
  intro home t hhome ht
  obtain ⟨hlt, hevery⟩ := h home t hhome ht
  refine ⟨Int.lt_of_lt_of_le hlt (hc.apply (hc.legal_own ha)).grows.slots, ?_⟩
  refine hevery.apply (fun heq => ?_) ?_
  · omega
  · rintro l x rfl
    exact ha

/-- A write is elsewhere, takes a view its home, or is made in the view. -/
theorem follow_cases (l : Location) (x : Value) (v : View) :
    (v.follow l x = v ∧ ∀ home, v.home? = some home → home.slot = l.slot →
      ¬ home.path <+: l.path ∧ ¬ l.path <+: home.path) ∨
    (v.follow l x).value = v.value ∧ (v.follow l x).home? = none ∨
    ∃ home k rest, v.home? = some home ∧ home.slot = l.slot ∧ l.path = home.path ++ k :: rest ∧
      v.follow l x = ⟨(v.value.setAt? (k :: rest) x).getD v.value, some home⟩ := by
  unfold follow
  cases hhome : v.home? with
  | none => exact .inl ⟨rfl, nofun⟩
  | some home =>
    dsimp only
    by_cases hslot : home.slot = l.slot
    · rw [if_neg (not_not.2 hslot)]
      by_cases habove : l.path <+: home.path
      · rw [if_pos (List.isPrefixOf_iff_prefix.2 habove)]
        exact .inr (.inl ⟨rfl, rfl⟩)
      · rw [if_neg (mt List.isPrefixOf_iff_prefix.1 habove)]
        by_cases hbelow : home.path <+: l.path
        · obtain ⟨rest, hrest⟩ := hbelow
          cases rest with
          | nil => exact absurd (by simp [← hrest]) habove
          | cons k rest =>
            rw [if_pos (List.isPrefixOf_iff_prefix.2 ⟨_, hrest⟩), ← hrest, List.drop_left]
            exact .inr (.inr ⟨home, k, rest, rfl, hslot, rfl, rfl⟩)
        · rw [if_neg (mt List.isPrefixOf_iff_prefix.1 hbelow)]
          refine .inl ⟨rfl, ?_⟩
          rintro _ ⟨⟩ -
          exact ⟨hbelow, habove⟩
    · rw [if_pos hslot]
      refine .inl ⟨rfl, ?_⟩
      rintro _ ⟨⟩ hsame
      exact absurd hsame hslot

/-- Views follow the writes, and stay current by it. -/
theorem Current.follow (hc : Consistent e) (h : v.Current e)
    (hstore : (Scoped.store l x).run.run e = (.ok (), e')) : (v.follow l x).Current e' := by
  obtain ⟨-, old, new, hold, hnew, rfl⟩ := exists_of_store hstore
  have hlinked : Linked (Scoped.written l new e) :=
    (Scoped.steps_written hc new).consistent.toLinked
  intro home t hhome ht
  rcases follow_cases l x v with ⟨hsame, hbeside⟩ | ⟨-, hnone⟩ | ⟨home', k, rest, hhome', hslot,
    hpath, hsame⟩
  -- The view is unchanged, and so is what lies at its home.
  · rw [hsame] at hhome ht
    obtain ⟨hlt, hevery⟩ := h home t hhome ht
    have hvalues := hc.toLinked.every_iff.1 hevery
    refine ⟨hlt, hlinked.every_iff.2 fun i d hd => ?_⟩
    by_cases hslot : home.slot = l.slot
    · obtain ⟨hbelow, habove⟩ := hbeside home hhome hslot
      rw [hslot, hc.toLinked.value?_written hold] at hd
      split at hd
      · obtain rfl := Option.some.inj hd
        rw [Value.descend_setAt?_of_beside hnew hbelow habove]
        exact hvalues l.scope old (hslot ▸ hold)
      · cases hd
    · rw [value?_written, if_neg fun hand => hslot hand.2.symm] at hd
      exact hvalues i d hd
  · rw [hnone] at hhome
    cases hhome
  -- The same write is made at the home and in the view, where the arrays were the same.
  · rw [hsame] at hhome ht
    obtain rfl : home' = home := Option.some.inj hhome
    have hshown : ∃ u, v.value = .array u := by
      cases hv : v.value with
      | array u => exact ⟨u, rfl⟩
      | _ => simp [hv, Value.setAt?] at ht
    obtain ⟨u, hu⟩ := hshown
    obtain ⟨hlt, hevery⟩ := h home' u hhome' hu
    have hdescend : old.descend home'.path = .array u :=
      hc.toLinked.every_iff.1 hevery l.scope old (hslot ▸ hold)
    rw [hpath] at hnew
    have hset := Value.setAt?_append hnew
    rw [hdescend] at hset
    rw [hu, hset, Option.getD_some] at ht
    refine ⟨hlt, hlinked.every_iff.2 fun i d hd => ?_⟩
    rw [hslot, hc.toLinked.value?_written hold] at hd
    split at hd
    · obtain rfl := Option.some.inj hd
      exact ht
    · cases hd

end View

end PhpInterpreter
