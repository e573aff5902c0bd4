import BismarckPreloader.Fdt.Tree

/-!
# The walk on arbitrary blocks

The blocks come from flash and hold anything. `WalkSafe` asks that every read of the
walk stays inside them and that every pass of either loop moves on, unless it
returns or stops on an unknown token. No length, offset or depth is checked by the
code, so this holds exactly when the words themselves keep the walk in range:
`walkSafe_iff` says so with a condition on the words in front of each pass.
-/

namespace BismarckPreloader.Fdt

def Reached (m : Blocks) (path : Path) (f : Frame) : Prop :=
  Loop.Leads (getPropPass m) ⟨.root (pathBytes path.comps path.prop), 0, 0⟩ (.next f)

structure WalkSafe (m : Blocks) (path : Path) : Prop where
  reads : ∀ fuel e, fdtGetProp m (pathBytes path.comps path.prop) fuel = .halt e →
    ∃ i, e = .unknownToken i
  advances : ∀ f c, Reached m path f → f.pass m = .next c → f.cursor.token < c.token

-- ---------------------------------------------------------------------------
-- Names
-- ---------------------------------------------------------------------------

/-- Behind the first word of the name, a word of the block reads as the head of a
token. -/
def NameEnds (m : Blocks) (token : Nat) : Prop :=
  ∃ j w, token + 2 ≤ j ∧ m.struct[j]? = some w ∧ fdtIsTokenHead w = true

theorem nextTokenHead_ok (h : nextTokenHead ws i = .ok j) :
    i ≤ j ∧ ∃ w, ws[j - i]? = some w ∧ fdtIsTokenHead w = true := by
  induction ws generalizing i with
  | nil => cases h
  | cons w ws ih =>
    rw [nextTokenHead] at h
    split at h
    next hw =>
      cases h
      exact ⟨Nat.le_refl _, w, by simp, hw⟩
    next =>
      obtain ⟨hle, v, hv, hh⟩ := ih h
      refine ⟨by omega, v, ?_, hh⟩
      obtain ⟨k, rfl⟩ : ∃ k, j = i + 1 + k := ⟨j - (i + 1), by omega⟩
      rw [show i + 1 + k - i = k + 1 by omega, List.getElem?_cons_succ]
      rwa [show i + 1 + k - (i + 1) = k by omega] at hv

theorem nextTokenHead_error (h : nextTokenHead ws i = .error e) :
    (∃ j, e = .structRead j) ∧ ∀ w ∈ ws, fdtIsTokenHead w = false := by
  induction ws generalizing i with
  | nil =>
    cases h
    exact ⟨⟨i, rfl⟩, by simp⟩
  | cons w ws ih =>
    rw [nextTokenHead] at h
    split at h
    next => cases h
    next hw =>
      obtain ⟨he, hws⟩ := ih h
      refine ⟨he, ?_⟩
      rintro v (_ | ⟨_, hv⟩)
      · simpa using hw
      · exact hws v hv

theorem skipName_ok {m : Blocks} (h : m.skipName token = .ok j) :
    token + 2 ≤ j ∧ NameEnds m token := by
  obtain ⟨hle, w, hw, hh⟩ := nextTokenHead_ok h
  refine ⟨hle, j, w, hle, ?_, hh⟩
  rwa [List.getElem?_drop, Nat.add_sub_cancel' hle] at hw

theorem skipName_error {m : Blocks} (h : m.skipName token = .error e) :
    (∃ j, e = .structRead j) ∧ ¬ NameEnds m token := by
  obtain ⟨he, hws⟩ := nextTokenHead_error h
  refine ⟨he, ?_⟩
  rintro ⟨j, w, hle, hw, hh⟩
  have hm : w ∈ m.struct.drop (token + 2) := by
    refine List.mem_of_getElem? (i := j - (token + 2)) ?_
    rwa [List.getElem?_drop, Nat.add_sub_cancel' hle]
  exact absurd (hws w hm) (by simp [hh])

theorem fdtStrcmp_error (h : fdtStrcmp s1 i s2 ext = .error e) : ∃ k, s1 k = .error e := by
  induction s2 generalizing i with
  | nil =>
    cases hs : s1 i with
    | error e' =>
      rw [fdtStrcmp_of_error hs] at h
      exact ⟨i, hs.trans (by simpa using h)⟩
    | ok c =>
      rw [fdtStrcmp_nil hs] at h
      cases h
  | cons c₂ s2 ih =>
    cases hs : s1 i with
    | error e' =>
      rw [fdtStrcmp_of_error hs] at h
      exact ⟨i, hs.trans (by simpa using h)⟩
    | ok c =>
      rw [fdtStrcmp_cons hs] at h
      split at h
      next => exact ih h
      next => cases h

theorem fdtStrcmp_of_nul (hle : i ≤ k) (hok : ∀ j, i ≤ j → j ≤ k → ∃ c, s1 j = .ok c)
    (hk : s1 k = .ok 0) (s2 : List UInt8) (ext : UInt8) :
    ∃ differs, fdtStrcmp s1 i s2 ext = .ok differs := by
  induction s2 generalizing i with
  | nil =>
    obtain ⟨c, hc⟩ := hok i (Nat.le_refl _) hle
    exact ⟨_, fdtStrcmp_nil hc⟩
  | cons c₂ s2 ih =>
    obtain ⟨c, hc⟩ := hok i (Nat.le_refl _) hle
    rw [fdtStrcmp_cons hc]
    split
    next h =>
      have hne : i ≠ k := by
        rintro rfl
        rw [hk] at hc
        cases hc
        exact h.1 rfl
      exact ih (by omega) fun j hj => hok j (by omega)
    next => exact ⟨_, rfl⟩

theorem structByte_ok {m : Blocks} (h : k / 4 < m.struct.length) :
    m.structByte k = .ok (wordByte m.struct[k / 4] (k % 4)) := by
  simp [Blocks.structByte, List.getElem?_eq_getElem h]

theorem NameEnds.strcmp_ok {m : Blocks} (h : NameEnds m token) (name : List UInt8) :
    ∃ differs, fdtStrcmp m.structByte (4 * (token + 1)) name slash = .ok differs := by
  obtain ⟨j, w, hle, hw, hh⟩ := h
  have hlt : j < m.struct.length := (List.getElem?_eq_some_iff.mp hw).1
  refine fdtStrcmp_of_nul (k := 4 * j) (by omega) (fun k _ hk => ⟨_, structByte_ok (by omega)⟩) ?_
    name slash
  have hdiv : 4 * j / 4 = j := by omega
  have hmod : 4 * j % 4 = 0 := by omega
  have hsmall := (fdtIsTokenHead_iff w).mp hh
  have hbyte : wordByte w 0 = 0 := by
    rw [wordByte, show w.toNat / 256 ^ (3 - 0) = 0 from Nat.div_eq_of_lt (by omega)]
    rfl
  simp [Blocks.structByte, hdiv, hmod, hw, hbyte]

theorem structByte_error {m : Blocks} (h : m.structByte k = .error e) : ∃ j, e = .structRead j := by
  unfold Blocks.structByte at h
  split at h
  next => cases h
  next =>
    cases h
    exact ⟨_, rfl⟩

theorem stringByte_end {m : Blocks} (h : m.strings.drop off = []) :
    m.stringByte off = .error (.stringRead off) := by
  simp [Blocks.stringByte, List.drop_eq_nil_iff.mp h]

theorem stringByte_cons {m : Blocks} (h : m.strings.drop off = c :: l) :
    m.stringByte off = .ok c := by
  have hget : m.strings[off]? = some c := by rw [← List.head?_drop, h, List.head?_cons]
  simp [Blocks.stringByte, hget]

/-- Comparing a property's name reads past the strings block exactly if the block
ends before the two differ. -/
theorem strcmp_string {m : Blocks} (hn : ∀ c ∈ name, c ≠ (0 : UInt8)) (off : Nat) :
    (m.strings.drop off <+: name ∧
      ∃ k, fdtStrcmp m.stringByte off name 0 = .error (.stringRead k)) ∨
    (¬ m.strings.drop off <+: name ∧
      fdtStrcmp m.stringByte off name 0 = .ok (decide ¬ name ++ [0] <+: m.strings.drop off)) := by
  induction name generalizing off with
  | nil =>
    cases hl : m.strings.drop off with
    | nil =>
      exact .inl ⟨List.nil_prefix, off, fdtStrcmp_of_error (stringByte_end hl) _ _⟩
    | cons c l =>
      have hb := stringByte_cons hl
      refine .inr ⟨by simp, ?_⟩
      rw [fdtStrcmp_nil hb]
      simp [fdtIsEos, eq_comm]
  | cons n name ih =>
    have hn0 := hn n (by simp)
    cases hl : m.strings.drop off with
    | nil =>
      exact .inl ⟨List.nil_prefix, off, fdtStrcmp_of_error (stringByte_end hl) _ _⟩
    | cons c l =>
      have hb := stringByte_cons hl
      have hl' : m.strings.drop (off + 1) = l := by
        rw [← List.drop_drop, hl]
        rfl
      rw [fdtStrcmp_cons hb]
      by_cases hc : c = n
      · subst hc
        rw [if_pos ⟨hn0, hn0, rfl⟩]
        have := ih (fun x hx => hn x (by simp [hx])) (off + 1)
        rw [hl'] at this
        simpa [List.prefix_cons_inj] using this
      · refine .inr ⟨?_, ?_⟩
        · rw [List.cons_prefix_cons]
          exact fun h => hc h.1
        · rw [if_neg (by tauto)]
          simp [fdtIsEos, hn0, List.cons_prefix_cons, Ne.symm hc]

-- ---------------------------------------------------------------------------
-- One pass
-- ---------------------------------------------------------------------------

def PropSkips (m : Blocks) (token : Nat) : Prop :=
  ∃ len, m.struct[token + 1]? = some len ∧ token < propEnd token len

/-- What `fdt_find_node` needs of the word `w` it is at. -/
def NodeGuard (m : Blocks) (c : Cursor) (w : UInt32) : Prop :=
  (w = fdtNodeStart → c.depth = 0 ∧ NameEnds m c.token) ∧ (w = fdtProp → PropSkips m c.token)

def NamedPropGuard (m : Blocks) (name : List UInt8) (token : Nat) : Prop :=
  ∃ off : UInt32, m.struct[token + 2]? = some off ∧ ¬ m.strings.drop off.toNat <+: name ∧
    (¬ name ++ [0] <+: m.strings.drop off.toNat → PropSkips m token)

/-- What `fdt_find_prop` needs of the word `w` it is at. -/
def PropGuard (m : Blocks) (name : List UInt8) (c : Cursor) (w : UInt32) : Prop :=
  (w = fdtNodeStart → NameEnds m c.token) ∧
  (w = fdtProp → if c.depth = 0 then NamedPropGuard m name c.token else PropSkips m c.token)

def PassSafe (token : Nat) : CursorOutcome → Prop
  | .next c => token < c.token
  | .ret _ => True
  | .halt e => ∃ i, e = .unknownToken i

theorem word_of_some {m : Blocks} {i : Nat} (h : m.struct[i]? = some w) : m.word i = .ok w := by
  simp [Blocks.word, h]

theorem word_of_none {m : Blocks} {i : Nat} (h : m.struct[i]? = none) :
    m.word i = .error (.structRead i) := by
  simp [Blocks.word, h]

theorem IsToken.cases {motive : UInt32 → Prop} (w : UInt32) (stop : motive fdtEnd)
    (nodeStart : motive fdtNodeStart) (nodeEnd : motive fdtNodeEnd) (prop : motive fdtProp)
    (nop : motive fdtNop) (unknown : ¬ IsToken w → motive w) : motive w := by
  by_cases h : IsToken w
  · rcases h with rfl | rfl | rfl | rfl | rfl
    · exact stop
    · exact nodeStart
    · exact nodeEnd
    · exact prop
    · exact nop
  · exact unknown h

theorem passSafe_skip {m : Blocks} {depth : UInt32} :
    PassSafe token (.attempt (m.word (token + 1)) fun len => .next ⟨propEnd token len, depth⟩) ↔
      PropSkips m token := by
  cases hl : m.struct[token + 1]? with
  | none => simp [word_of_none hl, PassSafe, PropSkips, hl]
  | some len => simp [word_of_some hl, PassSafe, PropSkips, hl]

theorem findNodePass_safe_iff {m : Blocks} (hw : m.struct[c.token]? = some w) :
    PassSafe c.token (findNodePass m name c) ↔ NodeGuard m c w := by
  have hword := word_of_some hw
  induction w using IsToken.cases with
  | stop => simp [findNodePass_end hword, PassSafe, NodeGuard, fdtEnd, fdtNodeStart, fdtProp]
  | nodeEnd => simp [findNodePass_nodeEnd hword, PassSafe, NodeGuard, fdtNodeEnd, fdtNodeStart, fdtProp]
  | nop => simp [findNodePass_nop hword, PassSafe, NodeGuard, fdtNop, fdtNodeStart, fdtProp]
  | unknown hu =>
    simp only [IsToken, not_or] at hu
    simp [findNodePass_unknown hword (by simp [IsToken, hu]), PassSafe, NodeGuard, hu]
  | prop =>
    rw [findNodePass_prop hword, passSafe_skip]
    simp [NodeGuard, fdtNodeStart, fdtProp]
  | nodeStart =>
    rw [findNodePass_nodeStart hword]
    split
    next h0 =>
      cases hs : m.skipName c.token with
      | ok token =>
        obtain ⟨hle, hends⟩ := skipName_ok hs
        obtain ⟨differs, hcmp⟩ := hends.strcmp_ok name
        cases differs <;> simp [hcmp, PassSafe, NodeGuard, h0, hends, fdtNodeStart, fdtProp]
        omega
      | error e =>
        obtain ⟨⟨j, rfl⟩, hends⟩ := skipName_error hs
        refine iff_of_false ?_ (by simp [NodeGuard, hends])
        cases hcmp : fdtStrcmp m.structByte (4 * (c.token + 1)) name slash with
        | ok differs => simp [PassSafe]
        | error e =>
          obtain ⟨k, hk⟩ := fdtStrcmp_error hcmp
          obtain ⟨j, rfl⟩ := structByte_error hk
          simp [PassSafe]
    next h0 => simp [PassSafe, NodeGuard, h0]

theorem findPropPass_safe_iff {m : Blocks} (hn : ∀ b ∈ name, b ≠ (0 : UInt8))
    (hw : m.struct[c.token]? = some w) :
    PassSafe c.token (findPropPass m name c) ↔ PropGuard m name c w := by
  have hword := word_of_some hw
  induction w using IsToken.cases with
  | stop => simp [findPropPass_end hword, PassSafe, PropGuard, fdtEnd, fdtNodeStart, fdtProp]
  | nodeEnd =>
    rw [findPropPass_nodeEnd hword]
    split <;> simp [PassSafe, PropGuard, fdtNodeEnd, fdtNodeStart, fdtProp]
  | nop => simp [findPropPass_nop hword, PassSafe, PropGuard, fdtNop, fdtNodeStart, fdtProp]
  | unknown hu =>
    simp only [IsToken, not_or] at hu
    simp [findPropPass_unknown hword (by simp [IsToken, hu]), PassSafe, PropGuard, hu]
  | nodeStart =>
    rw [findPropPass_nodeStart hword]
    cases hs : m.skipName c.token with
    | ok token =>
      obtain ⟨hle, hends⟩ := skipName_ok hs
      simp [PassSafe, PropGuard, hends, fdtNodeStart, fdtProp]
      omega
    | error e =>
      obtain ⟨⟨j, rfl⟩, hends⟩ := skipName_error hs
      simp [PassSafe, PropGuard, hends]
  | prop =>
    rw [findPropPass_prop hword]
    have hguard : PropGuard m name c fdtProp ↔
        if c.depth = 0 then NamedPropGuard m name c.token else PropSkips m c.token := by
      simp [PropGuard, fdtProp, fdtNodeStart]
    rw [hguard]
    split
    next h0 =>
      cases hoff : m.struct[c.token + 2]? with
      | none => simp [word_of_none hoff, PassSafe, NamedPropGuard, hoff]
      | some off =>
        have hiff : NamedPropGuard m name c.token ↔ ¬ m.strings.drop off.toNat <+: name ∧
            (¬ name ++ [0] <+: m.strings.drop off.toNat → PropSkips m c.token) := by
          simp [NamedPropGuard, hoff]
        rw [word_of_some hoff, Outcome.attempt_ok, hiff]
        rcases strcmp_string (m := m) hn off.toNat with ⟨hpre, k, hcmp⟩ | ⟨hpre, hcmp⟩
        · simp [hcmp, hpre, PassSafe]
        · rw [hcmp, Outcome.attempt_ok]
          by_cases hm : name ++ [0] <+: m.strings.drop off.toNat
          · simp [hm, hpre, PassSafe]
          · simp only [hm, not_false_eq_true, decide_true, if_true, passSafe_skip, hpre, true_and,
              forall_const]
    next h0 => exact passSafe_skip

-- ---------------------------------------------------------------------------
-- The walk along a path
-- ---------------------------------------------------------------------------

/-- What the pass needs of the words it is in front of. A root that is not found
leaves a null pointer to be walked from. -/
def Frame.Guarded (m : Blocks) (f : Frame) : Prop :=
  ∃ w, m.struct[f.cursor.token]? = some w ∧
    match f.call with
    | .root _ => w ≠ fdtEnd ∧ NodeGuard m f.cursor w
    | .node _ _ => NodeGuard m f.cursor w
    | .prop name => PropGuard m name f.cursor w

def Call.Walkable : Call → Prop
  | .root path => ∃ p : Path, path = pathBytes p.comps p.prop
  | .node _ next => ∃ p : Path, next = pathBytes p.comps p.prop
  | .prop name => ∀ b ∈ name, b ≠ 0

theorem enter_walkable (p : Path) (i : Nat) :
    ∃ call, enter (some i) (pathBytes p.comps p.prop) = .next ⟨call, i, 0⟩ ∧ call.Walkable := by
  obtain ⟨comps, prop, hc, hp⟩ := p
  cases comps with
  | nil => exact ⟨_, enter_prop hp i, fun b hb => (hp.1 b hb).1⟩
  | cons name comps =>
    have hc' : ∀ n ∈ comps, Plain n ∧ n ≠ [] := fun n h => hc n (by simp [h])
    exact ⟨_, enter_comp (hc name (by simp)) i, ⟨comps, prop, hc', hp⟩, rfl⟩

theorem enter_null (p : Path) : enter none (pathBytes p.comps p.prop) = .halt .null := by
  obtain ⟨ptr, next, hbytes, hnext⟩ :
      ∃ ptr next, pathBytes p.comps p.prop = slash :: ptr ∧ fdtPathNextName ptr = .ok next := by
    obtain ⟨comps, prop, hc, hp⟩ := p
    cases comps with
    | nil => exact ⟨prop, none, rfl, fdtPathNextName_plain hp.1 hp.2⟩
    | cons name comps =>
      obtain ⟨s, hs⟩ := pathBytes_slash comps prop
      have hn := hc name (by simp)
      refine ⟨name ++ slash :: s, _, ?_, fdtPathNextName_slash hn.1 hn.2 s⟩
      simp [← hs, pathBytes]
  rw [hbytes, enter, if_pos rfl, hnext]
  rfl

theorem Call.Walkable.resume {call : Call} (h : call.Walkable) (r : Option Nat) :
    (∃ v, call.resume r = .ret v) ∨
    (∃ f, call.resume r = .next f ∧ f.call.Walkable) ∨
    ((∃ path, call = .root path) ∧ r = none ∧ call.resume r = .halt .null) := by
  cases call with
  | root path =>
    obtain ⟨p, rfl⟩ := h
    cases r with
    | none => exact .inr (.inr ⟨⟨_, rfl⟩, rfl, enter_null p⟩)
    | some i =>
      obtain ⟨call, he, hw⟩ := enter_walkable p i
      exact .inr (.inl ⟨_, he, hw⟩)
  | node name next =>
    obtain ⟨p, rfl⟩ := h
    cases r with
    | none => exact .inl ⟨none, rfl⟩
    | some i =>
      obtain ⟨call, he, hw⟩ := enter_walkable p i
      exact .inr (.inl ⟨_, he, hw⟩)
  | prop name => exact .inl ⟨r, rfl⟩

theorem Reached.walkable (h : Reached m path f) : f.call.Walkable := by
  have hroot : (Call.root (pathBytes path.comps path.prop)).Walkable := ⟨path, rfl⟩
  refine Loop.Leads.inv (fun f : Frame => f.call.Walkable) hroot ?_ h
  intro f f' hf hstep
  unfold getPropPass at hstep
  split at hstep
  next c hc =>
    cases hstep
    exact hf
  next r hr =>
    rcases hf.resume r with ⟨v, hv⟩ | ⟨f'', hn, hw⟩ | ⟨-, -, hh⟩
    · rw [hv] at hstep
      cases hstep
    · rw [hn] at hstep
      cases hstep
      exact hw
    · rw [hh] at hstep
      cases hstep
  next => cases hstep

theorem findNodePass_none_iff {m : Blocks} (hw : m.struct[c.token]? = some w) :
    findNodePass m name c = .ret none ↔ w = fdtEnd := by
  have hword := word_of_some hw
  induction w using IsToken.cases with
  | stop => simp [findNodePass_end hword]
  | nodeEnd => simp [findNodePass_nodeEnd hword, fdtNodeEnd, fdtEnd]
  | nop => simp [findNodePass_nop hword, fdtNop, fdtEnd]
  | unknown hu =>
    have hne : w ≠ fdtEnd := fun h => hu (.inl h)
    simp [findNodePass_unknown hword hu, hne]
  | prop =>
    rw [findNodePass_prop hword]
    refine iff_of_false ?_ (by decide)
    cases m.word (c.token + 1) <;> simp
  | nodeStart =>
    rw [findNodePass_nodeStart hword]
    refine iff_of_false ?_ (by decide)
    split
    next =>
      cases fdtStrcmp m.structByte (4 * (c.token + 1)) name slash with
      | error e => simp
      | ok differs =>
        cases m.skipName c.token with
        | error e => simp
        | ok token => cases differs <;> simp
    next => simp

theorem Frame.guarded_iff {f : Frame} {m : Blocks} (hf : f.call.Walkable) :
    f.Guarded m ↔ PassSafe f.cursor.token (f.pass m) ∧
      ∀ path, f.call = .root path → f.pass m ≠ .ret none := by
  obtain ⟨call, c⟩ := f
  cases hw : m.struct[c.token]? with
  | none =>
    have hhalt : Frame.pass m ⟨call, c⟩ = .halt (.structRead c.token) := by
      cases call <;> simp [Frame.pass, findNodePass, findPropPass, word_of_none hw]
    simp [Frame.Guarded, hw, hhalt, PassSafe]
  | some w =>
    cases call with
    | root path =>
      have hpass : PassSafe c.token (findNodePass m [] c) ↔ NodeGuard m c w :=
        findNodePass_safe_iff hw
      have hnone : findNodePass m [] c = .ret none ↔ w = fdtEnd := findNodePass_none_iff hw
      simp only [Frame.Guarded, Frame.pass, hw, hpass, Ne, hnone, Option.some.injEq, exists_eq_left',
        Call.root.injEq, forall_eq']
      exact And.comm
    | node name next =>
      have hpass : PassSafe c.token (findNodePass m name c) ↔ NodeGuard m c w :=
        findNodePass_safe_iff hw
      simp [Frame.Guarded, Frame.pass, hw, hpass]
    | prop name =>
      have hpass := findPropPass_safe_iff hf hw
      simp [Frame.Guarded, Frame.pass, hw, hpass]

/-- The walk is safe exactly if every pass it gets to finds words it can deal
with. -/
theorem walkSafe_iff (m : Blocks) (path : Path) :
    WalkSafe m path ↔ ∀ f, Reached m path f → f.Guarded m := by
  constructor
  · intro h f hf
    have halts : ∀ e, getPropPass m f = .halt e → ∃ i, e = .unknownToken i := by
      intro e he
      obtain ⟨fuel, hrun⟩ := Loop.Leads.trans hf (.one he)
      exact h.reads fuel e hrun
    refine (Frame.guarded_iff hf.walkable).mpr ⟨?_, ?_⟩
    · cases hp : f.pass m with
      | next c => exact h.advances f c hf hp
      | ret r => trivial
      | halt e => exact halts e (by simp [getPropPass, hp])
    · rintro p hc hp
      have hnull : getPropPass m f = .halt .null := by
        obtain ⟨q, rfl⟩ : (Call.root p).Walkable := hc ▸ hf.walkable
        simp [getPropPass, hp, hc, Call.resume, enter_null]
      obtain ⟨i, hi⟩ := halts _ hnull
      cases hi
  · intro h
    have hsafe : ∀ f, Reached m path f → _ := fun f hf =>
      (Frame.guarded_iff hf.walkable).mp (h f hf)
    refine ⟨?_, ?_⟩
    · intro fuel e hrun
      obtain ⟨f, hf, hstep⟩ := Loop.Leads.last ⟨fuel, hrun⟩ rfl
      obtain ⟨hpass, hroot⟩ := hsafe f hf
      unfold getPropPass at hstep
      split at hstep
      next => cases hstep
      next r hr =>
        rcases Call.Walkable.resume (Reached.walkable hf) r with ⟨v, hv⟩ | ⟨f', hn, -⟩ |
          ⟨⟨p, hp⟩, rfl, -⟩
        · rw [hv] at hstep
          cases hstep
        · rw [hn] at hstep
          cases hstep
        · exact absurd hr (hroot p hp)
      next e' he =>
        cases hstep
        rw [he] at hpass
        exact hpass
    · intro f c hf hc
      have hpass := (hsafe f hf).1
      rw [hc] at hpass
      exact hpass

def nestedNodes : Blocks where
  struct := [fdtNodeStart, 0, fdtNodeStart, 0x78000000, fdtNodeStart, 0x79000000,
    fdtNodeEnd, fdtNodeEnd, fdtNodeEnd, fdtEnd]
  strings := []
  sized := by decide

def cutRoot : Blocks where
  struct := [fdtNodeStart, 0]
  strings := []
  sized := by decide

/-- At the inner node the walk stays where it is; in a block that ends early it
reads on. -/
theorem bootWalk_unsafe :
    ¬ WalkSafe nestedNodes BootProp.dataSize.path ∧ ¬ WalkSafe cutRoot BootProp.dataSize.path := by
  constructor
  · intro h
    have hreached : Reached nestedNodes BootProp.dataSize.path
        ⟨.node (ascii "images/uboot/data-size") (ascii "/uboot/data-size"), 4, 1⟩ :=
      ⟨2, by decide⟩
    exact absurd (h.advances _ ⟨4, 2⟩ hreached (by decide)) (by decide)
  · intro h
    obtain ⟨i, hi⟩ := h.reads 1 (.structRead 2) (by decide)
    cases hi

end BismarckPreloader.Fdt
