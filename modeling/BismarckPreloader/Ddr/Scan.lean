import BismarckPreloader.Lib.Loops
import BismarckPreloader.Ddr.Phy

/-!
# The scans of the DDR calibration

Model of `DDR_Calibration_Full_Scan_Reduce` around its searches. After a scan the windows are
checked and set bit by bit, the group delays of the two bytes are raised where a read window
begins late, and the scan is repeated until the register holds the delays found.
-/

namespace BismarckPreloader.Ddr

structure ScanOutcome where
  readOk : Table
  writeOk : Table

def ScanOutcome.windows (o : ScanOutcome) (mode16 : Bool) (bit : Nat) : BitWindows :=
  scan mode16 o.readOk o.writeOk bit

def ScanOutcome.probe (o : ScanOutcome) (mode16 : Bool) : Nat :=
  let read := phase (activeBits mode16) taps taps o.readOk ⟨fun _ => .init, .init⟩
  30 <<< 24 ||| (read.last.best.taps.getLastD 0) <<< 8

def ScanOutcome.setting (o : ScanOutcome) (mode16 : Bool) (n : Nat) : Setting :=
  ⟨o.probe mode16, o.windows mode16, n⟩

def BitWindows.short (v : BitWindows) : Bool := v.read.len < 8 || v.write.len < 8

/-- The bits of the lower byte (LDQ) of a rising or falling edge; the others are of the upper
one (HDQ). -/
def lower (bit : Nat) : Bool := bit < 8 || (16 ≤ bit && bit < 24)

structure BitState where
  shiftL : Nat
  shiftU : Nat
  phy : Phy

def raise (last shift start : Nat) : Nat := if start > shift then start + last else shift

def bitStep (c : Board) (lastL lastU : Nat) (windows : Nat → BitWindows) (s : BitState)
    (bit : Nat) : Outcome BitState BitState Empty :=
  if (windows bit).short then .ret s
  else
    let s := { s with phy := setPhyDelayDqrf c s.phy bit (windows bit) }
    if lower bit then .next { s with shiftL := raise lastL s.shiftL (windows bit).read.start }
    else .next { s with shiftU := raise lastU s.shiftU (windows bit).read.start }

/-- The variables of the function, the two fields of `DACCR` and the number of scans that
were begun again. -/
structure State where
  shiftL : Nat
  shiftU : Nat
  lastL : Nat
  lastU : Nat
  fieldL : Nat
  fieldU : Nat
  phy : Phy
  round : Nat

def settle (shift last : Nat) : Nat := if shift = 0 then last else shift

/-- A scan from `scan_start` on. It returns, or the fields are written and it begins again. -/
def scanStep (c : Board) (mode16 : Bool) (scans : Nat → ScanOutcome) (s : State) :
    Outcome State (Nat × State) Empty :=
  match Scan.run (bitStep c s.lastL s.lastU ((scans s.round).windows mode16))
      ⟨s.shiftL, s.shiftU, { s.phy with dacdqr := fun _ => (scans s.round).probe mode16 }⟩
      (List.range 32) with
  | .ret b => .ret (1, { s with shiftL := b.shiftL, shiftU := b.shiftU, phy := b.phy })
  | .next b =>
    let l := settle b.shiftL s.lastL
    let u := settle b.shiftU s.lastU
    let s : State := ⟨l, u, l, u, s.fieldL, s.fieldU, b.phy, s.round⟩
    if s.fieldL ≠ l ∨ s.fieldU ≠ u then
      .next { s with fieldL := l % 32, fieldU := u % 32, round := s.round + 1 }
    else .ret (0, s)

def start (fieldL fieldU : Fin 32) (phy : Phy) : State :=
  ⟨0, 0, 0, 0, fieldL, fieldU, phy, 0⟩

-- ---------------------------------------------------------------------------
-- One scan
-- ---------------------------------------------------------------------------

def raised (side : Nat → Bool) (windows : Nat → BitWindows) (last shift : Nat)
    (bits : List Nat) : Nat :=
  bits.foldl (fun shift bit =>
    if side bit then raise last shift (windows bit).read.start else shift) shift

theorem le_raise (last shift start : Nat) : shift ≤ raise last shift start := by
  unfold raise
  split
  · omega
  · exact Nat.le_refl _

theorem le_raised (side : Nat → Bool) (windows : Nat → BitWindows) (last shift : Nat)
    (bits : List Nat) : shift ≤ raised side windows last shift bits := by
  unfold raised
  induction bits generalizing shift with
  | nil => exact Nat.le_refl _
  | cons bit bits ih =>
    rw [List.foldl_cons]
    refine Nat.le_trans ?_ (ih _)
    split
    · exact le_raise ..
    · exact Nat.le_refl _

theorem bitStep_lower (hs : (windows bit).short = false) (hl : lower bit = true)
    (s : BitState) :
    bitStep c lastL lastU windows s bit =
      .next ⟨raise lastL s.shiftL (windows bit).read.start, s.shiftU,
        setPhyDelayDqrf c s.phy bit (windows bit)⟩ := by
  simp [bitStep, hs, hl]

theorem bitStep_upper (hs : (windows bit).short = false) (hl : lower bit = false)
    (s : BitState) :
    bitStep c lastL lastU windows s bit =
      .next ⟨s.shiftL, raise lastU s.shiftU (windows bit).read.start,
        setPhyDelayDqrf c s.phy bit (windows bit)⟩ := by
  simp [bitStep, hs, hl]

theorem run_bits_next (h : ∀ bit ∈ bits, (windows bit).short = false) (s : BitState) :
    Scan.run (bitStep c lastL lastU windows) s bits =
      .next ⟨raised lower windows lastL s.shiftL bits,
        raised (fun bit => !lower bit) windows lastU s.shiftU bits,
        setPhyDelays c s.phy (bits.map fun bit => (bit, windows bit))⟩ := by
  induction bits generalizing s with
  | nil => rfl
  | cons bit bits ih =>
    obtain ⟨hbit, hbits⟩ := List.forall_mem_cons.mp h
    cases hl : lower bit with
    | true =>
      rw [Scan.run_cons_next (bitStep_lower hbit hl s), ih hbits]
      simp [raised, setPhyDelays, hl]
    | false =>
      rw [Scan.run_cons_next (bitStep_upper hbit hl s), ih hbits]
      simp [raised, setPhyDelays, hl]

theorem run_bits_ret (c : Board) (lastL lastU : Nat)
    (h : ∃ bit ∈ bits, (windows bit).short = true) (s : BitState) :
    ∃ b, ∃ n ≤ bits.length, Scan.run (bitStep c lastL lastU windows) s bits = .ret b ∧
      b.phy = setPhyDelays c s.phy ((bits.take n).map fun bit => (bit, windows bit)) := by
  induction bits generalizing s with
  | nil =>
    obtain ⟨_, hb, -⟩ := h
    cases hb
  | cons bit bits ih =>
    cases hbit : (windows bit).short with
    | true => exact ⟨s, 0, Nat.zero_le _, Scan.run_cons_ret (by simp [bitStep, hbit]), rfl⟩
    | false =>
      have hrest : ∃ b ∈ bits, (windows b).short = true := by
        obtain ⟨b, hb, hs⟩ := h
        rcases List.mem_cons.mp hb with rfl | hb
        · rw [hbit] at hs
          cases hs
        · exact ⟨b, hb, hs⟩
      have hstep : ∃ t, bitStep c lastL lastU windows s bit = .next t ∧
          t.phy = setPhyDelayDqrf c s.phy bit (windows bit) := by
        cases hl : lower bit with
        | true => exact ⟨_, bitStep_lower hbit hl s, rfl⟩
        | false => exact ⟨_, bitStep_upper hbit hl s, rfl⟩
      obtain ⟨t, ht, hphy⟩ := hstep
      obtain ⟨b, n, hn, hrun, hb⟩ := ih hrest t
      refine ⟨b, n + 1, Nat.succ_le_succ hn, by rw [Scan.run_cons_next ht, hrun], ?_⟩
      rw [hb, hphy]
      rfl

def TooSmall (mode16 : Bool) (o : ScanOutcome) : Prop :=
  ∃ bit ∈ List.range 32, (o.windows mode16 bit).short = true

instance : Decidable (TooSmall mode16 o) := by
  unfold TooSmall
  infer_instance

section
variable {c : Board} {mode16 : Bool} {scans : Nat → ScanOutcome} {s : State}

def delayL (mode16 : Bool) (scans : Nat → ScanOutcome) (s : State) : Nat :=
  settle (raised lower ((scans s.round).windows mode16) s.lastL s.shiftL (List.range 32)) s.lastL

def delayU (mode16 : Bool) (scans : Nat → ScanOutcome) (s : State) : Nat :=
  settle (raised (fun bit => !lower bit) ((scans s.round).windows mode16) s.lastU s.shiftU
    (List.range 32)) s.lastU

def scanned (c : Board) (mode16 : Bool) (scans : Nat → ScanOutcome) (s : State) : State :=
  ⟨delayL mode16 scans s, delayU mode16 scans s, delayL mode16 scans s, delayU mode16 scans s,
    s.fieldL, s.fieldU,
    ((scans s.round).setting mode16 32).apply c s.phy, s.round⟩

def again (c : Board) (mode16 : Bool) (scans : Nat → ScanOutcome) (s : State) : State :=
  { scanned c mode16 scans s with
    fieldL := delayL mode16 scans s % 32
    fieldU := delayU mode16 scans s % 32
    round := s.round + 1 }

-- `rfl` would compute the delays
theorem again_lastL : (again c mode16 scans s).lastL = delayL mode16 scans s := by
  simp only [again, scanned]

theorem again_lastU : (again c mode16 scans s).lastU = delayU mode16 scans s := by
  simp only [again, scanned]

theorem again_shiftL : (again c mode16 scans s).shiftL = delayL mode16 scans s := by
  simp only [again, scanned]

theorem again_shiftU : (again c mode16 scans s).shiftU = delayU mode16 scans s := by
  simp only [again, scanned]

theorem again_fieldL : (again c mode16 scans s).fieldL = delayL mode16 scans s % 32 := by
  simp only [again]

theorem again_fieldU : (again c mode16 scans s).fieldU = delayU mode16 scans s % 32 := by
  simp only [again]

theorem again_round : (again c mode16 scans s).round = s.round + 1 := rfl

theorem scanStep_of_good (h : ¬TooSmall mode16 (scans s.round)) :
    scanStep c mode16 scans s =
      if s.fieldL ≠ delayL mode16 scans s ∨ s.fieldU ≠ delayU mode16 scans s then
        .next (again c mode16 scans s)
      else .ret (0, scanned c mode16 scans s) := by
  have hgood : ∀ bit ∈ List.range 32, ((scans s.round).windows mode16 bit).short = false := by
    intro bit hb
    by_contra hn
    exact h ⟨bit, hb, by simpa using hn⟩
  rw [scanStep, run_bits_next hgood]
  rfl

theorem scanStep_of_tooSmall (h : TooSmall mode16 (scans s.round)) :
    ∃ s', ∃ n ≤ 32, scanStep c mode16 scans s = .ret (1, s') ∧ s'.round = s.round ∧
      s'.phy = ((scans s.round).setting mode16 n).apply c s.phy := by
  obtain ⟨b, n, hn, hrun, hb⟩ := run_bits_ret c s.lastL s.lastU h
    ⟨s.shiftL, s.shiftU, { s.phy with dacdqr := fun _ => (scans s.round).probe mode16 }⟩
  rw [List.length_range] at hn
  rw [List.take_range, Nat.min_eq_left hn] at hb
  exact ⟨{ s with shiftL := b.shiftL, shiftU := b.shiftU, phy := b.phy }, n, hn,
    by rw [scanStep, hrun], rfl, hb⟩

theorem scanStep_cases (c : Board) (mode16 : Bool) (scans : Nat → ScanOutcome) (s : State) :
    (TooSmall mode16 (scans s.round) ∧
      ∃ s', scanStep c mode16 scans s = .ret (1, s') ∧ s'.round = s.round) ∨
    (¬TooSmall mode16 (scans s.round) ∧
      (s.fieldL ≠ delayL mode16 scans s ∨ s.fieldU ≠ delayU mode16 scans s) ∧
      scanStep c mode16 scans s = .next (again c mode16 scans s)) ∨
    (¬TooSmall mode16 (scans s.round) ∧
      s.fieldL = delayL mode16 scans s ∧ s.fieldU = delayU mode16 scans s ∧
      scanStep c mode16 scans s = .ret (0, scanned c mode16 scans s)) := by
  by_cases h : TooSmall mode16 (scans s.round)
  · obtain ⟨s', -, -, hs', hr, -⟩ := scanStep_of_tooSmall (c := c) h
    exact .inl ⟨h, s', hs', hr⟩
  · have hstep := scanStep_of_good (c := c) h
    split at hstep
    · rename_i hne
      exact .inr (.inl ⟨h, hne, hstep⟩)
    · rename_i heq
      rw [not_or, not_not, not_not] at heq
      exact .inr (.inr ⟨h, heq.1, heq.2, hstep⟩)

structure Verdict (mode16 : Bool) (scans : Nat → ScanOutcome) (r : Nat) (s : State) : Prop where
  ret : r = 0 ∨ r = 1
  small : r = 1 ↔ TooSmall mode16 (scans s.round)

theorem verdict_of_ret (h : scanStep c mode16 scans s = .ret (r, s')) :
    Verdict mode16 scans r s' ∧ s'.round = s.round := by
  rcases scanStep_cases c mode16 scans s with ⟨hs, u, hu, hr⟩ | ⟨-, -, hu⟩ | ⟨hs, hl, hu', hu⟩
  · rw [hu] at h
    cases h
    refine ⟨⟨.inr rfl, iff_of_true rfl ?_⟩, hr⟩
    rwa [hr]
  · rw [hu] at h
    cases h
  · rw [hu] at h
    cases h
    exact ⟨⟨.inl rfl, iff_of_false nofun hs⟩, rfl⟩

def Returns (c : Board) (mode16 : Bool) (scans : Nat → ScanOutcome) (s : State) (r : Nat)
    (s' : State) : Prop :=
  Loop.Leads (scanStep c mode16 scans) s (.ret (r, s'))

theorem verdict_of_returns (h : Returns c mode16 scans s r s') : Verdict mode16 scans r s' := by
  obtain ⟨t, -, ht⟩ := h.last rfl
  exact (verdict_of_ret ht).1

-- ---------------------------------------------------------------------------
-- The number of scans
-- ---------------------------------------------------------------------------

/-- The function returns, and `DACCR` holds the delays that it was last compared with. Nothing
was compared when the first scan is found to be bad. -/
def Ends (c : Board) (mode16 : Bool) (scans : Nat → ScanOutcome) (s₀ : State) : Prop :=
  ∃ r s, Returns c mode16 scans s₀ r s ∧
    (r = 0 ∨ s.round ≠ 0 → s.fieldL = s.lastL ∧ s.fieldU = s.lastU)

/-- The delays that are found fit into the fields, in every scan that is begun and whose windows
are large enough. -/
def DelaysFit (c : Board) (mode16 : Bool) (scans : Nat → ScanOutcome) (s₀ : State) : Prop :=
  ∀ s, Loop.Leads (scanStep c mode16 scans) s₀ (.next s) → ¬TooSmall mode16 (scans s.round) →
    delayL mode16 scans s < 32 ∧ delayU mode16 scans s < 32

theorem DelaysFit.next (h : DelaysFit c mode16 scans s)
    (hstep : scanStep c mode16 scans s = .next t) : DelaysFit c mode16 scans t :=
  fun u hu => h u (.head hstep hu)

theorem le_settle (h : shift = last) (hr : shift ≤ x) : shift ≤ settle x last := by
  unfold settle
  split
  · omega
  · exact hr

theorem le_delayL (mode16 : Bool) (scans : Nat → ScanOutcome) (h : s.lastL = s.shiftL) :
    s.shiftL ≤ delayL mode16 scans s :=
  le_settle h.symm (le_raised ..)

theorem le_delayU (mode16 : Bool) (scans : Nat → ScanOutcome) (h : s.lastU = s.shiftU) :
    s.shiftU ≤ delayU mode16 scans s :=
  le_settle h.symm (le_raised ..)

theorem next_eq_again (h : scanStep c mode16 scans s = .next t) :
    t = again c mode16 scans s ∧ ¬TooSmall mode16 (scans s.round) ∧
      (s.fieldL ≠ delayL mode16 scans s ∨ s.fieldU ≠ delayU mode16 scans s) := by
  rcases scanStep_cases c mode16 scans s with ⟨-, u, hu, -⟩ | ⟨hs, hne, hu⟩ | ⟨-, -, -, hu⟩
  · rw [hu] at h
    cases h
  · rw [hu] at h
    cases h
    exact ⟨rfl, hs, hne⟩
  · rw [hu] at h
    cases h

theorem kept_of_ret (h : scanStep c mode16 scans s = .ret (1, s')) :
    s'.fieldL = s.fieldL ∧ s'.fieldU = s.fieldU ∧ s'.lastL = s.lastL ∧ s'.lastU = s.lastU := by
  unfold scanStep at h
  split at h
  · cases h
    exact ⟨rfl, rfl, rfl, rfl⟩
  · dsimp only at h
    split at h
    · cases h
    · cases h

structure Written (s : State) : Prop where
  lastL : s.lastL = s.shiftL
  lastU : s.lastU = s.shiftU
  fieldL : s.fieldL = s.shiftL
  fieldU : s.fieldU = s.shiftU

theorem written_again (h : delayL mode16 scans s < 32 ∧ delayU mode16 scans s < 32) :
    Written (again c mode16 scans s) where
  lastL := again_lastL.trans again_shiftL.symm
  lastU := again_lastU.trans again_shiftU.symm
  fieldL := by rw [again_fieldL, again_shiftL, Nat.mod_eq_of_lt h.1]
  fieldU := by rw [again_fieldU, again_shiftU, Nat.mod_eq_of_lt h.2]

theorem raised_of_again (h : Written s)
    (hne : s.fieldL ≠ delayL mode16 scans s ∨ s.fieldU ≠ delayU mode16 scans s) :
    s.shiftL + s.shiftU < delayL mode16 scans s + delayU mode16 scans s := by
  have hl := le_delayL mode16 scans h.lastL
  have hu := le_delayU mode16 scans h.lastU
  rw [h.fieldL, h.fieldU] at hne
  omega

theorem scans_le (hfit : DelaysFit c mode16 scans s) (hw : Written s)
    (hs : s.shiftL < 32 ∧ s.shiftU < 32)
    (h : Loop.run (scanStep c mode16 scans) n s = .next t) :
    n + (s.shiftL + s.shiftU) ≤ t.shiftL + t.shiftU ∧ t.shiftL < 32 ∧ t.shiftU < 32 := by
  induction n generalizing s with
  | zero =>
    cases h
    exact ⟨by omega, hs⟩
  | succ n ih =>
    obtain ⟨s', hstep, hrest⟩ := Loop.next_of_run_succ h
    have hfit' := hfit.next hstep
    obtain ⟨rfl, hgood, hne⟩ := next_eq_again hstep
    have hf := hfit s (.refl s) hgood
    have hr := raised_of_again hw hne
    have hlt : (again c mode16 scans s).shiftL < 32 ∧ (again c mode16 scans s).shiftU < 32 := by
      rwa [again_shiftL, again_shiftU]
    have hrec := ih hfit' (written_again hf) hlt hrest
    rw [again_shiftL, again_shiftU] at hrec
    exact ⟨by omega, hrec.2⟩

theorem run_64_of_fit (h : DelaysFit c mode16 scans s) :
    ∃ r t, Loop.run (scanStep c mode16 scans) 64 s = .ret (r, t) := by
  cases hrun : Loop.run (scanStep c mode16 scans) 64 s with
  | next t =>
    obtain ⟨s', hstep, hrest⟩ := Loop.next_of_run_succ hrun
    have hfit' := h.next hstep
    obtain ⟨rfl, hgood, -⟩ := next_eq_again hstep
    have hf := h s (.refl s) hgood
    have hlt : (again c mode16 scans s).shiftL < 32 ∧ (again c mode16 scans s).shiftU < 32 := by
      rwa [again_shiftL, again_shiftU]
    have hle := scans_le hfit' (written_again hf) hlt hrest
    omega
  | ret q => exact ⟨q.1, q.2, rfl⟩
  | halt e => cases e

theorem written_of_leads (hfit : DelaysFit c mode16 scans s₀) (h₀ : s₀.round = 0)
    (h : Loop.Leads (scanStep c mode16 scans) s₀ (.next s)) (hr : s.round ≠ 0) : Written s := by
  have hinv := h.inv (fun s => DelaysFit c mode16 scans s ∧ (s.round ≠ 0 → Written s))
    ⟨hfit, fun hr => absurd h₀ hr⟩ fun s t hs hstep => by
      obtain ⟨rfl, hgood, -⟩ := next_eq_again hstep
      exact ⟨hs.1.next hstep, fun _ => written_again (hs.1 s (.refl s) hgood)⟩
  exact hinv.2 hr

theorem ends_of_fit (h₀ : s.round = 0) (h : DelaysFit c mode16 scans s) :
    Ends c mode16 scans s := by
  obtain ⟨r, t, hrun⟩ := run_64_of_fit h
  have hreturns : Returns c mode16 scans s r t := ⟨64, hrun⟩
  refine ⟨r, t, hreturns, fun hcompared => ?_⟩
  obtain ⟨u, hu, hstep⟩ := hreturns.last rfl
  rcases scanStep_cases c mode16 scans u with ⟨-, t', ht, hround⟩ | ⟨-, -, ht⟩ | ⟨-, hl, hr, ht⟩
  · rw [ht] at hstep
    cases hstep
    obtain ⟨hfl, hfu, hll, hlu⟩ := kept_of_ret ht
    have hw := written_of_leads h h₀ hu (hround ▸ hcompared.resolve_left nofun)
    rw [hfl, hfu, hll, hlu]
    exact ⟨hw.fieldL.trans hw.lastL.symm, hw.fieldU.trans hw.lastU.symm⟩
  · rw [ht] at hstep
    cases hstep
  · rw [ht] at hstep
    cases hstep
    exact ⟨hl, hr⟩

/-- The state is that of a register with fields of 5 bits and of variables that agree. -/
structure Held (s : State) : Prop where
  lastL : s.lastL = s.shiftL
  lastU : s.lastU = s.shiftU
  fieldL_lt : s.fieldL < 32
  fieldU_lt : s.fieldU < 32

theorem held_start (fieldL fieldU : Fin 32) (phy : Phy) : Held (start fieldL fieldU phy) :=
  ⟨rfl, rfl, fieldL.isLt, fieldU.isLt⟩

theorem held_again : Held (again c mode16 scans s) where
  lastL := again_lastL.trans again_shiftL.symm
  lastU := again_lastU.trans again_shiftU.symm
  fieldL_lt := by
    rw [again_fieldL]
    exact Nat.mod_lt _ (by decide)
  fieldU_lt := by
    rw [again_fieldU]
    exact Nat.mod_lt _ (by decide)

theorem held_of_leads (h₀ : Held s) (h : Loop.Leads (scanStep c mode16 scans) s (.next t)) :
    Held t :=
  h.inv Held h₀ fun _ _ _ hstep => (next_eq_again hstep).1 ▸ held_again

/-- A delay that does not fit has been compared with its field. -/
structure Stuck (s : State) : Prop extends Held s where
  round : s.round ≠ 0
  large : 32 ≤ s.lastL ∨ 32 ≤ s.lastU

theorem stuck_again (hbad : 32 ≤ delayL mode16 scans s ∨ 32 ≤ delayU mode16 scans s) :
    Stuck (again c mode16 scans s) := by
  refine ⟨held_again, Nat.succ_ne_zero _, ?_⟩
  rwa [again_lastL, again_lastU]

theorem Stuck.delays (h : Stuck s) (mode16 : Bool) (scans : Nat → ScanOutcome) :
    32 ≤ delayL mode16 scans s ∨ 32 ≤ delayU mode16 scans s := by
  have hl := le_delayL mode16 scans h.lastL
  have hu := le_delayU mode16 scans h.lastU
  have hlarge := h.large
  rw [h.lastL, h.lastU] at hlarge
  omega

/-- From there on the fields are never the delays, whatever the scans find. -/
theorem Stuck.not_ends (h : Stuck s) (hr : Returns c mode16 scans s r t) :
    (r = 0 ∨ t.round ≠ 0) ∧ ¬(t.fieldL = t.lastL ∧ t.fieldU = t.lastU) := by
  obtain ⟨u, hu, hstep⟩ := hr.last rfl
  have hstuck : Stuck u := hu.inv Stuck h fun s' t' hs' hnext =>
    (next_eq_again hnext).1 ▸ stuck_again (hs'.delays mode16 scans)
  have hl := hstuck.fieldL_lt
  have hu' := hstuck.fieldU_lt
  rcases scanStep_cases c mode16 scans u with ⟨-, t', ht, hround⟩ | ⟨-, -, ht⟩ | ⟨-, hfl, hfu, ht⟩
  · rw [ht] at hstep
    cases hstep
    obtain ⟨kl, ku, kll, klu⟩ := kept_of_ret ht
    have hlarge := hstuck.large
    refine ⟨.inr (hround ▸ hstuck.round), ?_⟩
    rw [kl, ku, kll, klu]
    omega
  · rw [ht] at hstep
    cases hstep
  · have := hstuck.delays mode16 scans
    omega

theorem not_ends (hh : Held t) (ht : Loop.Leads (scanStep c mode16 scans) s (.next t))
    (hgood : ¬TooSmall mode16 (scans t.round))
    (hbad : 32 ≤ delayL mode16 scans t ∨ 32 ≤ delayU mode16 scans t) :
    ¬Ends c mode16 scans s := by
  rintro ⟨r, u, hreturns, hfields⟩
  have hstep : scanStep c mode16 scans t = .next (again c mode16 scans t) := by
    have := hh.fieldL_lt
    have := hh.fieldU_lt
    rw [scanStep_of_good hgood, if_pos (by omega)]
  have hrest : Returns c mode16 scans (again c mode16 scans t) r u :=
    (ht.trans (.one hstep)).rest hreturns rfl
  obtain ⟨hcompared, hne⟩ := (stuck_again hbad).not_ends hrest
  exact hne (hfields hcompared)

theorem ends_iff (c : Board) (mode16 : Bool) (scans : Nat → ScanOutcome)
    (fieldL fieldU : Fin 32) (phy : Phy) :
    Ends c mode16 scans (start fieldL fieldU phy) ↔
      DelaysFit c mode16 scans (start fieldL fieldU phy) := by
  refine ⟨fun h s hs hgood => ?_, ends_of_fit rfl⟩
  by_contra hbad
  exact not_ends (held_of_leads (held_start fieldL fieldU phy) hs) hs hgood (by omega) h

def plainBoard : Board := ⟨600, ⟨0, 0, 0, 0, 0, 0, 0⟩⟩

def resetPhy : Phy := ⟨fun _ => 0, fun _ => 0, 0, 0, fun _ => 16, fun _ => 0⟩

def lateScans (n : Nat) : ScanOutcome where
  readOk := fun _ _ r => (if n = 0 then 20 else 22) ≤ r
  writeOk := fun _ _ _ => true

theorem lateScans_windows (n : Nat) (hb : bit < 32) :
    (lateScans n).windows true bit =
      ⟨if n = 0 then ⟨20, 11⟩ else ⟨22, 9⟩, ⟨0, 31⟩⟩ := by
  rw [ScanOutcome.windows, scan_16bit _ _ hb]
  unfold lateScans
  split
  · dsimp only
    decide +kernel
  · dsimp only
    decide +kernel

theorem lateScans_good (n : Nat) : ¬TooSmall true (lateScans n) := by
  rintro ⟨bit, hb, hs⟩
  rw [lateScans_windows n (List.mem_range.mp hb)] at hs
  split at hs
  · cases hs
  · cases hs

theorem raised_congr (h : ∀ bit ∈ bits, windows bit = windows' bit) (last shift : Nat) :
    raised side windows last shift bits = raised side windows' last shift bits := by
  unfold raised
  induction bits generalizing shift with
  | nil => rfl
  | cons bit bits ih =>
    obtain ⟨hbit, hbits⟩ := List.forall_mem_cons.mp h
    rw [List.foldl_cons, List.foldl_cons, hbit]
    exact ih hbits _

theorem delayL_lateScans (s : State) :
    delayL true lateScans s =
      settle (raised lower (fun _ => ⟨if s.round = 0 then ⟨20, 11⟩ else ⟨22, 9⟩, ⟨0, 31⟩⟩)
        s.lastL s.shiftL (List.range 32)) s.lastL := by
  rw [delayL, raised_congr fun bit hb => lateScans_windows s.round (List.mem_range.mp hb)]

theorem delayL_second (hr : s.round ≠ 0) (hlast : s.lastL = 20) (hshift : s.shiftL = 20) :
    delayL true lateScans s = 42 := by
  rw [delayL_lateScans, hlast, hshift, if_neg hr]
  decide +kernel

/-- The second scan adds its delay to that of the first, and 42 is no value of a field. -/
theorem lateScans_not_ends : ¬Ends plainBoard true lateScans (start 0 0 resetPhy) := by
  have hfirst : delayL true lateScans (start 0 0 resetPhy) = 20 := by
    rw [delayL_lateScans]
    decide +kernel
  have hstep : scanStep plainBoard true lateScans (start 0 0 resetPhy) =
      .next (again plainBoard true lateScans (start 0 0 resetPhy)) := by
    have hgood : ¬TooSmall true (lateScans (start 0 0 resetPhy).round) := lateScans_good _
    rw [scanStep_of_good hgood, hfirst, if_pos (.inl (by decide))]
  refine not_ends held_again (.one hstep) (lateScans_good _) (.inl ?_)
  rw [delayL_second]
  · decide
  · rw [again_round]
    exact Nat.succ_ne_zero _
  · rw [again_lastL, hfirst]
  · rw [again_shiftL, hfirst]

def ActiveTooSmall (mode16 : Bool) (o : ScanOutcome) : Prop :=
  ∃ bit < 32, active mode16 bit = true ∧ (o.windows mode16 bit).short = true

def VerdictRight (c : Board) (mode16 : Bool) (scans : Nat → ScanOutcome) (s₀ : State) : Prop :=
  ∀ r s, Returns c mode16 scans s₀ r s →
    (r = 0 ∨ r = 1) ∧ (r = 1 ↔ ActiveTooSmall mode16 (scans s.round))

theorem tooSmall_16bit (o : ScanOutcome) : TooSmall true o ↔ ActiveTooSmall true o := by
  simp only [TooSmall, ActiveTooSmall, List.mem_range, active_true, true_and]

theorem tooSmall_8bit (o : ScanOutcome) : TooSmall false o := by
  refine ⟨8, by decide, ?_⟩
  rw [ScanOutcome.windows, scan_of_not_active (by decide)]
  rfl

theorem verdictRight_iff (c : Board) (mode16 : Bool) (scans : Nat → ScanOutcome)
    (fieldL fieldU : Fin 32) (phy : Phy) :
    VerdictRight c mode16 scans (start fieldL fieldU phy) ↔
      mode16 = true ∨ ActiveTooSmall mode16 (scans 0) := by
  cases mode16 with
  | true =>
    refine iff_of_true (fun r s h => ?_) (.inl rfl)
    have hv := verdict_of_returns h
    rw [← tooSmall_16bit]
    exact ⟨hv.ret, hv.small⟩
  | false =>
    obtain ⟨s', -, -, hret, hround, -⟩ := scanStep_of_tooSmall (c := c)
      (s := start fieldL fieldU phy) (tooSmall_8bit (scans 0))
    have hreturns : Returns c false scans (start fieldL fieldU phy) 1 s' := .one hret
    have hzero : s'.round = 0 := hround
    constructor
    · intro h
      have := ((h 1 s' hreturns).2).mp rfl
      rw [hzero] at this
      exact .inr this
    · intro h r s hr
      have h := h.resolve_left (by decide)
      cases hreturns.unique hr rfl rfl
      rw [hzero]
      exact ⟨.inr rfl, iff_of_true rfl h⟩

end

def cleanScans (_ : Nat) : ScanOutcome := ⟨fun _ _ _ => true, fun _ _ _ => true⟩

/-- In 8-bit mode even that is found to be bad. -/
theorem cleanScans_not_verdictRight :
    ¬VerdictRight plainBoard false cleanScans (start 0 0 resetPhy) := by
  intro h
  obtain ⟨s', -, -, hret, -⟩ := scanStep_of_tooSmall (c := plainBoard)
    (s := start 0 0 resetPhy) (tooSmall_8bit (cleanScans 0))
  obtain ⟨bit, hb, ha, hs⟩ := ((h 1 s' (.one hret)).2).mp rfl
  rw [ScanOutcome.windows, scan_active _ _ (mem_activeBits.mpr ⟨hb, ha⟩)] at hs
  unfold cleanScans at hs
  dsimp only at hs
  revert hs
  decide +kernel

end BismarckPreloader.Ddr
