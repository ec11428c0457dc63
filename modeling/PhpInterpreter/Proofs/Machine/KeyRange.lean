import PhpInterpreter.Proofs.Machine.Session
import PhpInterpreter.Proofs.Source.Complete

/-!
The integer keys of the arrays of a session. Strings that read as integers past 64 bits stay
strings, and literals past them become doubles, but a double is cut to its integer part when it is a
key, and an append counts on past the largest integer. The main result says that keys come out of
range in no other way: such a key is the integer part of a double, or follows another key of its
array.
-/

namespace PhpInterpreter

/-- An integer that a value can have: one of 64 bits or the integer part of a double. -/
def Attainable (n : Int) : Prop := fits n = true ∨ IntegerPart n

theorem Attainable.tmod {m n : Int} (hm : Attainable m) (hn : Attainable n) (hzero : n ≠ 0) :
    Attainable (m.tmod n) := by
  rcases hm with hm | hm
  · exact .inl (fits_tmod hzero (.inl hm))
  · rcases hn with hn | hn
    · exact .inl (fits_tmod hzero (.inr hn))
    · exact .inr (hm.tmod hn)

namespace Number

/-- A number that a value can be. -/
def Attainable : Number → Prop
  | int n => PhpInterpreter.Attainable n
  | float x => x.InFormat

theorem InFormat.attainable {x : Number} (h : x.InFormat) : x.Attainable := by
  cases x with
  | int n => exact .inl h
  | float y => exact h

theorem Attainable.truncate {x : Number} (h : x.Attainable) :
    PhpInterpreter.Attainable x.truncate := by
  cases x with
  | int n => exact h
  | float y => exact .inr ⟨y, h, rfl⟩

end Number

namespace Table

variable {α : Type} {t u : Table α} {k : Key} {v : α}

/-- Every integer key is attainable or follows another one. -/
def Rooted (t : Table α) : Prop :=
  ∀ n, .int n ∈ t.keys → Attainable n ∨ 0 < n ∧ .int (n - 1) ∈ t.keys

theorem rooted_empty : (empty : Table α).Rooted := nofun

/-- The next key is zero or follows the largest one. -/
theorem Rooted.set (h : t.Rooted) (ho : t.Ordered)
    (hk : t.Takes (fun k => ∀ n, k = .int n → Attainable n) k) (v : α) : (t.set k v).Rooted := by
  intro n hn
  have hold : .int n ∈ t.keys → Attainable n ∨ 0 < n ∧ .int (n - 1) ∈ (t.set k v).keys := fun hn =>
    (h n hn).imp_right fun ⟨hpos, hbelow⟩ => ⟨hpos, mem_keys_set.2 (.inr hbelow)⟩
  rcases mem_keys_set.1 hn with rfl | hn
  · rcases hk with hk | hnext | hk
    · exact .inl (hk n rfl)
    · obtain rfl := Key.int.inj hnext
      rcases ho.next with ⟨hzero, -⟩ | ⟨m, hm, hin, -, hnext⟩
      · refine .inl (.inl ?_)
        rw [hzero]
        decide
      · refine .inr ⟨by omega, mem_keys_set.2 (.inr ?_)⟩
        rwa [hnext, Int.add_sub_cancel]
    · exact hold hk
  · exact hold hn

/-- A table with the keys of two rooted ones is rooted. -/
theorem Rooted.of_mem_keys {w : Table α} (ht : t.Rooted) (hu : u.Rooted)
    (hw : ∀ k, k ∈ w.keys ↔ k ∈ t.keys ∨ k ∈ u.keys) : w.Rooted := by
  intro n hn
  rw [hw] at hn ⊢
  rcases hn with hn | hn
  · exact (ht n hn).imp_right fun ⟨hpos, hbelow⟩ => ⟨hpos, .inl hbelow⟩
  · exact (hu n hn).imp_right fun ⟨hpos, hbelow⟩ => ⟨hpos, .inr hbelow⟩

end Table

namespace Value

variable {v : Value} {t u : Table Value}

/-- A tidy value whose numbers are attainable and whose arrays are rooted. -/
inductive Rooted : Value → Prop
  | null : Rooted .null
  | bool (b : Bool) : Rooted (.bool b)
  | number {n : Number} : n.Attainable → Rooted (.number n)
  | string (s : String) : Rooted (.string s)
  | object (handle : Int) (c : String) : Rooted (.object handle c)
  | array {t : Table Value} : t.Ordered → t.Rooted → (∀ p ∈ t.entries, Rooted p.2) →
      Rooted (.array t)

theorem Rooted.attainable {n : Number} (h : Rooted (.number n)) : n.Attainable := by
  cases h with
  | number hn => exact hn

theorem Rooted.table (h : Rooted (.array t)) :
    t.Ordered ∧ t.Rooted ∧ ∀ p ∈ t.entries, Rooted p.2 := by
  cases h with
  | array ho hr he => exact ⟨ho, hr, he⟩

theorem Rooted.defined (h : Rooted v) : Rooted v.defined := by
  cases h <;> constructor <;> assumption

/-- Keys for a rooted array: normal, and attainable if they are integers. -/
def RootKey (k : Key) : Prop := k.Normal ∧ ∀ n, k = .int n → Attainable n

theorem Rooted.set {k : Key} (h : Rooted (.array t)) (hk : t.Takes RootKey k) (hv : Rooted v) :
    Rooted (.array (t.set k v)) := by
  obtain ⟨ho, hr, he⟩ := h.table
  have hnormal : k.Normal := ho.normal_of_takes (hk.imp_left (·.1))
  refine .array (ho.set hnormal v) (hr.set ho (hk.imp_left (·.2)) v) fun p hp => ?_
  rcases Assoc.mem_insert hp with rfl | hp
  · exact hv
  · exact he p hp

theorem Rooted.replace (h : Rooted (.array t)) (k : Key) (hv : Rooted v) :
    Rooted (.array (t.replace k v)) := by
  obtain ⟨ho, hr, he⟩ := h.table
  refine .array (ho.replace k v) ?_ fun p hp => ?_
  · intro n
    rw [Table.keys_replace]
    exact hr n
  · rcases Assoc.mem_modify hp with hp | ⟨_, -, rfl⟩
    · exact he p hp
    · exact hv

theorem mem_keys_union {k : Key} : k ∈ (union t u).keys ↔ k ∈ t.keys ∨ k ∈ u.keys := by
  rw [union, Table.mem_keys_union]
  simp [Table.keys, Assoc.keys]

theorem Rooted.union (ht : Rooted (.array t)) (hu : Rooted (.array u)) :
    Rooted (.array (Value.union t u)) := by
  obtain ⟨ho, hr, he⟩ := ht.table
  obtain ⟨ho', hr', he'⟩ := hu.table
  refine .array ?_ (hr.of_mem_keys hr' fun k => mem_keys_union) ?_
  · refine union_induction ho fun r p hr hp => ?_
    exact hr.set (ho'.normal _ (Assoc.mem_keys_of_mem hp)) p.2.defined
  · refine union_induction (motive := fun r => ∀ p ∈ r.entries, Rooted p.2) he ?_
    intro r p hr hp q hq
    rcases Assoc.mem_insert hq with rfl | hq
    · exact (he' p hp).defined
    · exact hr q hq

/-- What lies under a path of a rooted value is rooted. -/
theorem Rooted.descend (h : Rooted v) (path : List Key) (ht : v.descend path = .array t) :
    t.Rooted := by
  induction path generalizing v with
  | nil =>
    rw [Value.descend] at ht
    exact (ht ▸ h).table.2.1
  | cons k rest ih =>
    cases v with
    | array u =>
      rw [Value.descend] at ht
      cases hk : u.get? k with
      | none => simp [hk] at ht
      | some w => exact ih (h.table.2.2 _ (Assoc.mem_of_get? hk)) (by simpa [hk] using ht)
    | _ => simp [Value.descend] at ht

end Value

theorem Key.fits_ofString {s : String} {n : Int} (h : Key.ofString s = .ok (.int n)) :
    fits n = true := by
  have hkey : ∀ m : Int, (if fits m then Key.int m else .str s) = .int n → fits n = true := by
    intro m hm
    split at hm
    · rename_i hfits
      exact Key.int.inj hm ▸ hfits
    · cases hm
  unfold Key.ofString at h
  split at h
  · cases h
  · split at h
    · cases h
    · exact hkey _ (Except.ok.inj h)

namespace Contract

/-- Rooted values are stored under the keys that a table takes. -/
def rooted : Contract where
  value := Value.Rooted
  key := Value.RootKey
  fault _ := True
  strict := True
  lenient h := (h trivial).elim
  loose h := (h trivial).elim
  null := .null
  bool := .bool
  number h := .number h.attainable
  neg h := .number h.attainable.neg
  mod hx hy hzero := .number (hx.attainable.truncate.tmod hy.attainable.truncate hzero)
  string := .string
  empty := .array Table.ordered_empty Table.rooted_empty nofun
  set := .set
  replace k ht hv := ht.replace k hv
  union := .union
  entry ht hp := ht.table.2.2 _ hp
  truncate h := by
    refine ⟨Key.normal_int _, ?_⟩
    rintro _ ⟨⟩
    exact h.attainable.truncate
  ofString h := by
    refine ⟨Key.normal_ofString h, ?_⟩
    rintro n rfl
    exact .inl (Key.fits_ofString h)
  fatal _ := trivial
  operandTypes _ _ _ := trivial
  limit _ := trivial
  identical _ _ _ := trivial
  locate _ _ := trivial

end Contract

namespace Environment

variable {e : Environment}

/-- In a session the cells keep a contract that rules out no fault, whatever it asks of trees. -/
theorem Reached.cells_of_fault {K : Contract} (h : Reached e) (hfault : ∀ f, K.fault f)
    (hobject : ∀ handle c, K.value (.object handle c)) : K.Cells e := by
  refine h.cells_of_run (fun {m _ n} hm htext hcells => ?_) hobject
  have hends : Ends (Run.program n.toTerm) m (fun _ m' => K.Cells m'.env)
      (fun _ m' => K.Cells m'.env) := by
    refine (Contract.ends_program ⟨hcells, fun _ => hm.consistent⟩ fun _ => ?_).mono
      (fun _ _ hat => hat.env.cells) fun _ _ hstop => hstop.2.1.cells
    exact ⟨Source.runnable_of_tree htext, .inl hfault⟩
  exact hends.state

/-- An integer key of an array of a session, at any depth, is one of 64 bits, or the integer part of
a double, or the key after another key of the array. -/
theorem key_range {i slot n : Int} {s : Scope} {v : Value} {path : List Key} {t : Table Value}
    (h : Reached e) (hs : e.scope? i = some s) (hv : (slot, v) ∈ s.cells)
    (ht : v.descend path = .array t) (hn : .int n ∈ t.keys) :
    (minInt ≤ n ∧ n ≤ maxInt) ∨ (∃ x : Double, x.InFormat ∧ x.truncate = n) ∨
      0 < n ∧ .int (n - 1) ∈ t.keys := by
  have hcells : Contract.rooted.Cells e :=
    h.cells_of_fault (fun _ => trivial) fun handle c => .object handle c
  have hvalue : v.Rooted := hcells _ (Assoc.mem_of_get? hs) _ hv
  rcases hvalue.descend path ht n hn with (hfits | hpart) | hfollows
  · exact .inl (fits_iff.1 hfits)
  · exact .inr (.inl hpart)
  · exact .inr (.inr hfollows)

def crowdedText : String := "$a[9223372036854775807] = 1; $a[] = 2; $a[1e20] = 3;"

/-- Both ways out of range: an append after the largest integer, and a double past it. -/
theorem key_range_appended :
    ∃ t, firstArray? crowdedText = some t ∧
      t.keys = [.int maxInt, .int (maxInt + 1), .int (10 ^ 20)] ∧
      (∀ n, .int n ∈ t.keys →
        (minInt ≤ n ∧ n ≤ maxInt) ∨ (∃ x : Double, x.InFormat ∧ x.truncate = n) ∨
          0 < n ∧ .int (n - 1) ∈ t.keys) := by
  have hkeys : (firstArray? crowdedText).map (·.keys) =
      some [.int maxInt, .int (maxInt + 1), .int (10 ^ 20)] := by
    decide +kernel
  obtain ⟨t, ht, htkeys⟩ := Option.map_eq_some_iff.1 hkeys
  obtain ⟨n, s, htree, hs, hmem⟩ := cell_of_firstArray ht
  refine ⟨t, ht, htkeys, fun n hn => ?_⟩
  have hroot : (Value.array t).descend [] = .array t := by rw [Value.descend]
  exact key_range (.run .init htree) hs hmem hroot hn

end Environment

end PhpInterpreter
