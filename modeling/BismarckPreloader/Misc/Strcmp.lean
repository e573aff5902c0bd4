import BismarckPreloader.Lib.Loops
import BismarckPreloader.Lib.Memory

/-!
# Looking a name up by string

`inline_strcmp` walks two strings for as long as their bytes agree and returns
the difference of the first two that do not. The terminator does not stop it:
two equal strings are compared on into whatever follows them, and a result of 0
never comes. `cli_int_lookup`, which waits for that 0, finds no name.
-/

namespace BismarckPreloader.Strcmp

open Loop

variable {m : Mem}

def charVal (b : UInt8) : Int := (Int8.ofBitVec b.toBitVec).toInt

theorem charVal_inj (h : charVal a = charVal b) : a = b := by
  have h := congrArg Int8.toBitVec (Int8.toInt_inj.mp h)
  exact UInt8.toBitVec_inj.mp h

def strcmpStep (m : Mem) : Nat × Nat → Outcome (Nat × Nat) Int Empty
  | (a, b) => if m a = m b then .next (a + 1, b + 1) else .ret (charVal (m a) - charVal (m b))

def inlineStrcmp (m : Mem) (fuel a b : Nat) : Outcome (Nat × Nat) Int Empty :=
  run (strcmpStep m) fuel (a, b)

def Examines (m : Mem) (a b x y : Nat) : Prop := Leads (strcmpStep m) (a, b) (.next (x, y))

theorem strcmp_never_zero (h : inlineStrcmp m fuel a b = .ret d) : d ≠ 0 := by
  obtain ⟨⟨x, y⟩, -, hlast⟩ := Leads.last ⟨fuel, h⟩ rfl
  simp only [strcmpStep] at hlast
  split at hlast
  · cases hlast
  · cases hlast
    rename_i hne
    intro h0
    exact hne (charVal_inj (Int.sub_eq_zero.mp h0))

structure FirstDiff (m : Mem) (a b i : Nat) : Prop where
  same : ∀ j < i, m (a + j) = m (b + j)
  diff : m (a + i) ≠ m (b + i)

theorem leads_same (h : ∀ j < i, m (a + j) = m (b + j)) : Examines m a b (a + i) (b + i) := by
  induction i with
  | zero => exact .refl _
  | succ i ih =>
    refine (ih fun j hj => h j (Nat.lt_succ_of_lt hj)).trans (.one ?_)
    exact if_pos (h i (Nat.lt_succ_self i))

theorem FirstDiff.returns (h : FirstDiff m a b i) : ∃ fuel d, inlineStrcmp m fuel a b = .ret d := by
  obtain ⟨fuel, hf⟩ := (leads_same h.same).trans (.one (if_neg h.diff))
  exact ⟨fuel, _, hf⟩

theorem FirstDiff.examines (h : FirstDiff m a b i) (he : Examines m a b x y) :
    x ≤ a + i ∧ y ≤ b + i := by
  have hinv := he.inv (fun s => ∃ k ≤ i, s = (a + k, b + k)) ⟨0, Nat.zero_le i, rfl⟩ ?_
  · obtain ⟨k, hk, hs⟩ := hinv
    cases hs
    exact ⟨Nat.add_le_add_left hk a, Nat.add_le_add_left hk b⟩
  · rintro s s' ⟨k, hk, rfl⟩ hs
    simp only [strcmpStep] at hs
    split at hs
    · rename_i heq
      cases hs
      have hki : k ≠ i := fun hki => h.diff (hki ▸ heq)
      exact ⟨k + 1, Nat.lt_of_le_of_ne hk hki, rfl⟩
    · cases hs

def HoldsAt (m : Mem) : Nat → List UInt8 → Prop
  | a, [] => m a = 0
  | a, b :: s => m a = b ∧ b ≠ 0 ∧ HoldsAt m (a + 1) s

structure CString (m : Mem) where
  addr : Nat
  bytes : List UInt8
  holds : HoldsAt m addr bytes

theorem exists_firstDiff : ∀ (s t : List UInt8) (a b : Nat), HoldsAt m a s → HoldsAt m b t →
    s ≠ t → ∃ i, i ≤ s.length ∧ i ≤ t.length ∧ FirstDiff m a b i
  | [], [], _, _, _, _, hne => absurd rfl hne
  | [], y :: t, a, b, hs, ht, _ => by
    refine ⟨0, Nat.zero_le _, Nat.zero_le _, fun j hj => absurd hj (Nat.not_lt_zero j), ?_⟩
    intro h
    exact ht.2.1 (ht.1.symm.trans (h.symm.trans hs))
  | x :: s, [], a, b, hs, ht, _ => by
    refine ⟨0, Nat.zero_le _, Nat.zero_le _, fun j hj => absurd hj (Nat.not_lt_zero j), ?_⟩
    intro h
    exact hs.2.1 (hs.1.symm.trans (h.trans ht))
  | x :: s, y :: t, a, b, hs, ht, hne => by
    by_cases hxy : x = y
    · obtain ⟨i, hsi, hti, hd⟩ := exists_firstDiff s t (a + 1) (b + 1) hs.2.2 ht.2.2
        (fun h => hne (by rw [hxy, h]))
      refine ⟨i + 1, Nat.succ_le_succ hsi, Nat.succ_le_succ hti, ⟨?_, ?_⟩⟩
      · intro j hj
        cases j with
        | zero => exact hs.1.trans (hxy.trans ht.1.symm)
        | succ j => simpa only [Nat.add_right_comm, Nat.add_assoc] using hd.same j (by omega)
      · simpa only [Nat.add_right_comm, Nat.add_assoc] using hd.diff
    · refine ⟨0, Nat.zero_le _, Nat.zero_le _, fun j hj => absurd hj (Nat.not_lt_zero j), ?_⟩
      intro h
      exact hxy (hs.1.symm.trans (h.trans ht.1))

/-- What a string comparison is for: 0 exactly on equal strings, and no byte
looked at behind the end of the shorter string. -/
structure Compares (s t : CString m) : Prop where
  zero : ∃ fuel d, inlineStrcmp m fuel s.addr t.addr = .ret d ∧ (d = 0 ↔ s.bytes = t.bytes)
  within : ∀ x y, Examines m s.addr t.addr x y →
    x ≤ s.addr + min s.bytes.length t.bytes.length ∧
    y ≤ t.addr + min s.bytes.length t.bytes.length

theorem strcmp_compares_iff (s t : CString m) : Compares s t ↔ s.bytes ≠ t.bytes := by
  constructor
  · intro h heq
    obtain ⟨fuel, d, hd, hz⟩ := h.zero
    exact strcmp_never_zero hd (hz.mpr heq)
  · intro hne
    obtain ⟨i, hsi, hti, hdiff⟩ := exists_firstDiff _ _ _ _ s.holds t.holds hne
    obtain ⟨fuel, d, hd⟩ := hdiff.returns
    refine ⟨⟨fuel, d, hd, iff_of_false (strcmp_never_zero hd) hne⟩, fun x y he => ?_⟩
    have := hdiff.examines he
    omega

-- ---------------------------------------------------------------------------
-- The lookup
-- ---------------------------------------------------------------------------

/-- `str2int_entry_t`, the name by its address. -/
structure Str2IntEntry where
  valueStr : Nat
  value : UInt32

/-- The return code and what is stored through `value`; `none` while a
comparison has not come to its end. -/
def lookupFrom (m : Mem) (fuel valueStr : Nat) :
    List Str2IntEntry → Option (Int × Option UInt32)
  | [] => some (-1, none)
  | e :: list =>
    if e.valueStr = 0 then some (-1, none)
    else match inlineStrcmp m fuel valueStr e.valueStr with
      | .ret d => if d = 0 then some (0, some e.value) else lookupFrom m fuel valueStr list
      | _ => none

def cliIntLookup (m : Mem) (fuel : Nat) (list : Option (List Str2IntEntry)) (valueStr : Nat) :
    Option (Int × Option UInt32) :=
  match list with
  | none => some (-1, none)
  | some list => lookupFrom m fuel valueStr list

/-- A name of a table: at an address that does not end the table. -/
structure Name (m : Mem) extends CString m where
  value : UInt32
  addr_ne : addr ≠ 0

def Name.entry (n : Name m) : Str2IntEntry := ⟨n.addr, n.value⟩

def expected (s : List UInt8) (names : List (Name m)) : Int × Option UInt32 :=
  match names.find? (fun n => n.bytes = s) with
  | some n => (0, some n.value)
  | none => (-1, none)

structure LooksUp (s : CString m) (names : List (Name m)) : Prop where
  compares : ∀ n ∈ names, Compares s n.toCString
  finds : ∃ fuel, cliIntLookup m fuel (some (names.map Name.entry)) s.addr =
    some (expected s.bytes names)

theorem lookupFrom_none (s : CString m) (names : List (Name m))
    (h : ∀ n ∈ names, s.bytes ≠ n.bytes) :
    ∃ fuel, lookupFrom m fuel s.addr (names.map Name.entry) = some (-1, none) := by
  -- one amount of fuel serves every comparison: more of it changes nothing
  suffices hall : ∃ fuel, ∀ n ∈ names, ∃ d, inlineStrcmp m fuel s.addr n.addr = .ret d by
    obtain ⟨fuel, hall⟩ := hall
    refine ⟨fuel, ?_⟩
    clear h
    induction names with
    | nil => rfl
    | cons n names ih =>
      obtain ⟨d, hd⟩ := hall n List.mem_cons_self
      simp only [List.map_cons, lookupFrom, Name.entry, n.addr_ne, if_false, hd,
        strcmp_never_zero hd]
      exact ih fun n' hn' => hall n' (List.mem_cons_of_mem n hn')
  induction names with
  | nil => exact ⟨0, fun n hn => absurd hn List.not_mem_nil⟩
  | cons n names ih =>
    obtain ⟨fuel, hall⟩ := ih fun n' hn' => h n' (List.mem_cons_of_mem n hn')
    obtain ⟨fuel', d, hd, -⟩ :=
      ((strcmp_compares_iff s n.toCString).mpr (h n List.mem_cons_self)).zero
    refine ⟨max fuel fuel', ?_⟩
    simp only [List.mem_cons, forall_eq_or_imp]
    refine ⟨⟨d, run_mono hd rfl (Nat.le_max_right _ _)⟩, fun n' hn' => ?_⟩
    obtain ⟨d', hd'⟩ := hall n' hn'
    exact ⟨d', run_mono hd' rfl (Nat.le_max_left _ _)⟩

theorem expected_of_ne (names : List (Name m)) (h : ∀ n ∈ names, s ≠ n.bytes) :
    expected s names = (-1, none) := by
  have hfind : names.find? (fun n => n.bytes = s) = none := by
    simp only [List.find?_eq_none, decide_eq_true_eq]
    exact fun n hn he => h n hn he.symm
  rw [expected, hfind]

theorem not_looksUp_of_eq {s : CString m} {names : List (Name m)} {n : Name m} (hn : n ∈ names)
    (he : s.bytes = n.bytes) : ¬ LooksUp s names :=
  fun h => (strcmp_compares_iff s n.toCString).mp (h.compares n hn) he

theorem cli_int_lookup_iff (s : CString m) (names : List (Name m)) :
    LooksUp s names ↔ ∀ n ∈ names, s.bytes ≠ n.bytes := by
  constructor
  · intro h n hn he
    exact not_looksUp_of_eq hn he h
  · intro h
    refine ⟨fun n hn => (strcmp_compares_iff s n.toCString).mpr (h n hn), ?_⟩
    obtain ⟨fuel, hf⟩ := lookupFrom_none s names h
    exact ⟨fuel, hf.trans (by rw [expected_of_ne names h])⟩

def strayMem : Mem := fun x => if x = 16 ∨ x = 32 then 97 else if x = 18 then 1 else 0

theorem strayMem_sixteen : HoldsAt strayMem 16 [97] := ⟨rfl, by decide, rfl⟩
theorem strayMem_thirty_two : HoldsAt strayMem 32 [97] := ⟨rfl, by decide, rfl⟩

def strayName : Name strayMem := ⟨⟨32, [97], strayMem_thirty_two⟩, 5, Nat.succ_ne_zero 31⟩

theorem stray_name_not_found :
    cliIntLookup strayMem 3 (some [strayName.entry]) 16 = some (-1, none) ∧
      ¬ LooksUp ⟨16, [97], strayMem_sixteen⟩ [strayName] :=
  ⟨by decide, not_looksUp_of_eq List.mem_cons_self rfl⟩

end BismarckPreloader.Strcmp
