import BismarckPreloader.Ddr.Scan

/-!
# What earlier scans leave in the DDR PHY

The write delays that are kept in sync (`DWDQOR`) are merged into what the registers hold, and
the extremes for the data masks are collected in static variables. Neither is ever reset, so
the registers of a calibration can depend on the scans before its last one.
-/

namespace BismarckPreloader.Ddr

def afterHistory (c : Board) (p : Phy) (h : List Setting) : Phy :=
  h.foldl (fun p x => x.apply c p) p

def boot (dacdqr dwdqor : Nat → Nat) (dcdqmr dwdmor : Nat) : Phy :=
  ⟨dacdqr, dwdqor, dcdqmr, dwdmor, fun _ => 16, fun _ => 0⟩

theorem phy_of_run (h : Loop.run (scanStep c mode16 scans) n s = .next t) :
    t.phy = afterHistory c s.phy
      ((List.range' s.round n).map fun i => (scans i).setting mode16 32) := by
  induction n generalizing s with
  | zero =>
    cases h
    rfl
  | succ n ih =>
    obtain ⟨s', hstep, hrest⟩ := Loop.next_of_run_succ h
    obtain ⟨rfl, -⟩ := next_eq_again hstep
    rw [ih hrest, List.range'_succ, again_round]
    rfl

/-- What a call leaves: that of its complete scans, then of its last one, of which all bits or
those before the first bad window are set. -/
theorem phy_of_returns (h : Returns c mode16 scans s r s') :
    ∃ past : List Setting, ∃ n ≤ 32, (r = 0 → n = 32) ∧
      s'.phy = afterHistory c s.phy (past ++ [(scans s'.round).setting mode16 n]) := by
  obtain ⟨t, ⟨k, hk⟩, ht⟩ := h.last rfl
  have hphy := phy_of_run hk
  have hround := (verdict_of_ret ht).2
  suffices hlast : ∃ n ≤ 32, (r = 0 → n = 32) ∧
      s'.phy = ((scans s'.round).setting mode16 n).apply c t.phy by
    obtain ⟨n, hn, hr, hp⟩ := hlast
    refine ⟨(List.range' s.round k).map fun i => (scans i).setting mode16 32, n, hn, hr, ?_⟩
    rw [hp, hphy, afterHistory, afterHistory, List.foldl_append]
    rfl
  by_cases hsmall : TooSmall mode16 (scans t.round)
  · obtain ⟨u, n, hn, hu, hur, hup⟩ := scanStep_of_tooSmall (c := c) hsmall
    rw [hu] at ht
    cases ht
    exact ⟨n, hn, nofun, by rw [hup, hur]⟩
  · rw [scanStep_of_good hsmall] at ht
    split at ht
    · cases ht
    · cases ht
      exact ⟨32, Nat.le_refl _, fun _ => rfl, rfl⟩

-- ---------------------------------------------------------------------------
-- Registers as functions of the write taps
-- ---------------------------------------------------------------------------

def writeTaps (c : Board) (calls : List (Nat × BitWindows)) : List (Nat × Nat) :=
  calls.map fun q => (q.1, c.wDelayTap q.2.write)

def merged (i : Nat) (taps : List (Nat × Nat)) (word : Nat) : Nat :=
  taps.foldl (fun x t => if t.1 / 4 = i then x ||| t.2 <<< (t.1 % 4 * 8) else x) word

def lowest (k : Nat) (taps : List (Nat × Nat)) (lo : Nat) : Nat :=
  taps.foldl (fun lo t => if t.1 / 8 = k then min t.2 lo else lo) lo

def highest (k : Nat) (taps : List (Nat × Nat)) (hi : Nat) : Nat :=
  taps.foldl (fun hi t => if t.1 / 8 = k then max t.2 hi else hi) hi

section
variable {c : Board} {p : Phy}

theorem update_eq_ite (f g : Nat → Nat) (j i : Nat) :
    Function.update f j (g (f j)) i = if j = i then g (f i) else f i := by
  by_cases h : j = i
  · subst h
    simp
  · rw [if_neg h, Function.update_of_ne (Ne.symm h)]

theorem dwdqor_setPhyDelayDqrf (hi : i < 4) (bit : Nat) (v : BitWindows) :
    (setPhyDelayDqrf c p bit v).dwdqor i =
      if bit / 4 = i then p.dwdqor i ||| c.wDelayTap v.write <<< (bit % 4 * 8)
      else p.dwdqor i := by
  by_cases hb : bit < 16
  · rw [setPhyDelayDqrf_lower c p v hb]
    exact update_eq_ite p.dwdqor (· ||| c.wDelayTap v.write <<< (bit % 4 * 8)) _ i
  · rw [(setPhyDelayDqrf_upper c p v hb).1, if_neg (by omega)]

theorem dmDelayMin_setPhyDelayDqrf (hk : k < 2) (bit : Nat) (v : BitWindows) :
    (setPhyDelayDqrf c p bit v).dmDelayMin k =
      if bit / 8 = k then min (c.wDelayTap v.write) (p.dmDelayMin k) else p.dmDelayMin k := by
  by_cases hb : bit < 16
  · rw [setPhyDelayDqrf_lower c p v hb]
    exact update_eq_ite p.dmDelayMin (min (c.wDelayTap v.write)) _ k
  · rw [(setPhyDelayDqrf_upper c p v hb).2.1, if_neg (by omega)]

theorem dmDelayMax_setPhyDelayDqrf (hk : k < 2) (bit : Nat) (v : BitWindows) :
    (setPhyDelayDqrf c p bit v).dmDelayMax k =
      if bit / 8 = k then max (c.wDelayTap v.write) (p.dmDelayMax k) else p.dmDelayMax k := by
  by_cases hb : bit < 16
  · rw [setPhyDelayDqrf_lower c p v hb]
    exact update_eq_ite p.dmDelayMax (max (c.wDelayTap v.write)) _ k
  · rw [(setPhyDelayDqrf_upper c p v hb).2.2, if_neg (by omega)]

theorem dacdqr_setPhyDelayDqrf (bit : Nat) (v : BitWindows) :
    (setPhyDelayDqrf c p bit v).dacdqr = Function.update p.dacdqr bit (dqWord c v) := by
  unfold setPhyDelayDqrf
  by_cases hb : bit < 16
  · simp [hb]
  · by_cases h31 : bit = 31
    · simp [h31]
    · simp [hb, h31]

theorem foldl_writeTaps {f : Phy → Nat} {g : Nat → Nat × Nat → Nat}
    (h : ∀ p bit v, f (setPhyDelayDqrf c p bit v) = g (f p) (bit, c.wDelayTap v.write))
    (calls : List (Nat × BitWindows)) :
    f (setPhyDelays c p calls) = (writeTaps c calls).foldl g (f p) := by
  unfold setPhyDelays writeTaps
  induction calls generalizing p with
  | nil => rfl
  | cons q calls ih => rw [List.foldl_cons, ih, List.map_cons, List.foldl_cons, h]

def historyTaps (c : Board) (h : List Setting) : List (Nat × Nat) :=
  h.flatMap fun x => writeTaps c x.calls

theorem foldl_historyTaps {f : Phy → Nat} {g : Nat → Nat × Nat → Nat}
    (h : ∀ p bit v, f (setPhyDelayDqrf c p bit v) = g (f p) (bit, c.wDelayTap v.write))
    (hprobe : ∀ p probe, f { p with dacdqr := probe } = f p) (hist : List Setting) :
    f (afterHistory c p hist) = (historyTaps c hist).foldl g (f p) := by
  unfold afterHistory historyTaps
  induction hist generalizing p with
  | nil => rfl
  | cons x hist ih =>
    rw [List.foldl_cons, ih, List.flatMap_cons, List.foldl_append, Setting.apply,
      foldl_writeTaps h, hprobe]

theorem dwdqor_afterHistory (hi : i < 4) (h : List Setting) :
    (afterHistory c p h).dwdqor i = merged i (historyTaps c h) (p.dwdqor i) :=
  foldl_historyTaps (f := fun p => p.dwdqor i) (fun _ => dwdqor_setPhyDelayDqrf hi)
    (fun _ _ => rfl) h

theorem dmDelayMin_afterHistory (hk : k < 2) (h : List Setting) :
    (afterHistory c p h).dmDelayMin k = lowest k (historyTaps c h) (p.dmDelayMin k) :=
  foldl_historyTaps (f := fun p => p.dmDelayMin k) (fun _ => dmDelayMin_setPhyDelayDqrf hk)
    (fun _ _ => rfl) h

theorem dmDelayMax_afterHistory (hk : k < 2) (h : List Setting) :
    (afterHistory c p h).dmDelayMax k = highest k (historyTaps c h) (p.dmDelayMax k) :=
  foldl_historyTaps (f := fun p => p.dmDelayMax k) (fun _ => dmDelayMax_setPhyDelayDqrf hk)
    (fun _ _ => rfl) h

-- ---------------------------------------------------------------------------
-- The last scan
-- ---------------------------------------------------------------------------

def dcdqmrOf (dm0 dm1 : Nat) : Nat := (dm1 % 32) <<< 16 ||| (dm0 % 32) <<< 24
def dwdmorOf (dm0 dm1 : Nat) : Nat := (dm0 % 32) <<< 16 ||| (dm1 % 32) <<< 24

def maskDelay (c : Board) (p : Phy) (k : Nat) : Nat :=
  c.dmDelay (p.dmDelayMin k) (p.dmDelayMax k)

theorem masks_setPhyDelayDqrf (v : BitWindows) :
    (setPhyDelayDqrf c p 31 v).dcdqmr = dcdqmrOf (maskDelay c p 0) (maskDelay c p 1) ∧
      (setPhyDelayDqrf c p 31 v).dwdmor = dwdmorOf (maskDelay c p 0) (maskDelay c p 1) :=
  ⟨rfl, rfl⟩

theorem maskDelay_setPhyDelayDqrf (hk : k < 2) (v : BitWindows) :
    maskDelay c (setPhyDelayDqrf c p 31 v) k = maskDelay c p k := by
  rw [maskDelay, maskDelay, dmDelayMin_setPhyDelayDqrf hk, dmDelayMax_setPhyDelayDqrf hk,
    if_neg (by omega), if_neg (by omega)]

structure LastScan where
  probe : Nat
  windows : Nat → BitWindows

def LastScan.setting (x : LastScan) : Setting := ⟨x.probe, x.windows, 32⟩

theorem masks_apply (x : LastScan) :
    (x.setting.apply c p).dcdqmr =
        dcdqmrOf (maskDelay c (x.setting.apply c p) 0) (maskDelay c (x.setting.apply c p) 1) ∧
      (x.setting.apply c p).dwdmor =
        dwdmorOf (maskDelay c (x.setting.apply c p) 0) (maskDelay c (x.setting.apply c p) 1) := by
  obtain ⟨q, hq⟩ : ∃ q, x.setting.apply c p = setPhyDelayDqrf c q 31 (x.windows 31) := by
    refine ⟨setPhyDelays c { p with dacdqr := fun _ => x.probe }
      ((List.range 31).map fun bit => (bit, x.windows bit)), ?_⟩
    rw [Setting.apply, Setting.calls, LastScan.setting, setPhyDelays, setPhyDelays,
      show List.range 32 = List.range 31 ++ [31] from List.range_succ, List.map_append,
      List.foldl_append]
    rfl
  rw [hq, maskDelay_setPhyDelayDqrf (by decide), maskDelay_setPhyDelayDqrf (by decide)]
  exact masks_setPhyDelayDqrf _

theorem dacdqr_setPhyDelays {bits : List Nat} (hn : bits.Nodup) (hb : bit ∈ bits)
    (windows : Nat → BitWindows) :
    (setPhyDelays c p (bits.map fun bit => (bit, windows bit))).dacdqr bit =
      dqWord c (windows bit) := by
  have hout : ∀ (bits : List Nat) (p : Phy), bit ∉ bits →
      (setPhyDelays c p (bits.map fun bit => (bit, windows bit))).dacdqr bit = p.dacdqr bit := by
    intro bits
    induction bits with
    | nil => exact fun _ _ => rfl
    | cons b bits ih =>
      intro p hnot
      obtain ⟨hne, hnot⟩ := not_or.mp (List.mem_cons.not.mp hnot)
      exact (ih (setPhyDelayDqrf c p b (windows b)) hnot).trans (by
        rw [dacdqr_setPhyDelayDqrf, Function.update_of_ne hne])
  induction bits generalizing p with
  | nil => cases hb
  | cons b bits ih =>
    obtain ⟨hb', hn⟩ := List.nodup_cons.mp hn
    rcases List.mem_cons.mp hb with rfl | hb
    · exact (hout bits (setPhyDelayDqrf c p bit (windows bit)) hb').trans (by
        rw [dacdqr_setPhyDelayDqrf, Function.update_self])
    · exact ih hn hb

/-- The registers that `_memctl_set_phy_delay_dqrf` writes. -/
structure SameRegisters (p q : Phy) : Prop where
  dacdqr : ∀ bit < 32, p.dacdqr bit = q.dacdqr bit
  dwdqor : ∀ i < 4, p.dwdqor i = q.dwdqor i
  dcdqmr : p.dcdqmr = q.dcdqmr
  dwdmor : p.dwdmor = q.dwdmor

def byteTaps (c : Board) (windows : Nat → BitWindows) (k : Nat) : List Nat :=
  (List.range' (8 * k) 8).map fun bit => c.wDelayTap (windows bit).write

def scanDelay (c : Board) (windows : Nat → BitWindows) (k : Nat) : Nat :=
  c.dmDelay ((byteTaps c windows k).min?.getD 0) ((byteTaps c windows k).max?.getD 0)

structure MeanOfScan (c : Board) (windows : Nat → BitWindows) (p : Phy) : Prop where
  dcdqmr : p.dcdqmr = dcdqmrOf (scanDelay c windows 0) (scanDelay c windows 1)
  dwdmor : p.dwdmor = dwdmorOf (scanDelay c windows 0) (scanDelay c windows 1)

structure Calibrations where
  board : Board
  dacdqr : Nat → Nat
  dwdqor : Nat → Nat
  dcdqmr : Nat
  dwdmor : Nat
  first : List Setting
  second : List Setting
  last : LastScan

namespace Calibrations

variable (x : Calibrations)

def boot : Phy := Ddr.boot x.dacdqr x.dwdqor x.dcdqmr x.dwdmor

def result (h : List Setting) : Phy := afterHistory x.board x.boot (h ++ [x.last.setting])

structure LastScanOnly : Prop where
  same : SameRegisters (x.result x.first) (x.result x.second)
  first : MeanOfScan x.board x.last.windows (x.result x.first)
  second : MeanOfScan x.board x.last.windows (x.result x.second)

def tapsOf (h : List Setting) : List (Nat × Nat) :=
  historyTaps x.board (h ++ [x.last.setting])

/-- The extremes of all taps of a history, counted from 16 and 0, give the mask delays that
the last scan gives alone. -/
def MasksKept (h : List Setting) : Prop :=
  ∀ k < 2, x.board.dmDelay (lowest k (x.tapsOf h) 16) (highest k (x.tapsOf h) 0) % 32 =
    scanDelay x.board x.last.windows k % 32

structure NoTrace : Prop where
  words : ∀ i < 4, merged i (x.tapsOf x.first) (x.dwdqor i) =
    merged i (x.tapsOf x.second) (x.dwdqor i)
  first : x.MasksKept x.first
  second : x.MasksKept x.second

variable {x}

theorem result_eq (h : List Setting) :
    x.result h = x.last.setting.apply x.board (afterHistory x.board x.boot h) := by
  rw [result, afterHistory, afterHistory, List.foldl_append]
  rfl

theorem maskDelay_result (h : List Setting) (hk : k < 2) :
    maskDelay x.board (x.result h) k =
      x.board.dmDelay (lowest k (x.tapsOf h) 16) (highest k (x.tapsOf h) 0) := by
  rw [maskDelay, result, dmDelayMin_afterHistory hk, dmDelayMax_afterHistory hk]
  rfl

end Calibrations

theorem masksOf_inj {a b a' b' : Nat} :
    (a % 32) <<< 16 ||| (b % 32) <<< 24 = (a' % 32) <<< 16 ||| (b' % 32) <<< 24 ↔
      a % 32 = a' % 32 ∧ b % 32 = b' % 32 := by
  have hword : ∀ a b : Nat,
      (a % 32) <<< 16 ||| (b % 32) <<< 24 = b % 32 * 2 ^ 24 + a % 32 * 2 ^ 16 := by
    intro a b
    have hlt : (a % 32) <<< 16 < 2 ^ 24 := by
      rw [Nat.shiftLeft_eq]
      omega
    rw [Nat.or_comm, ← Nat.shiftLeft_add_eq_or_of_lt hlt, Nat.shiftLeft_eq, Nat.shiftLeft_eq]
  rw [hword, hword]
  omega

namespace Calibrations

theorem meanOfScan_iff {x : Calibrations} (h : List Setting) :
    MeanOfScan x.board x.last.windows (x.result h) ↔ x.MasksKept h := by
  obtain ⟨hm, hw⟩ := masks_apply (c := x.board) (p := afterHistory x.board x.boot h) x.last
  rw [← result_eq, maskDelay_result h (by decide), maskDelay_result h (by decide)] at hm hw
  constructor
  · rintro ⟨hmean, -⟩
    rw [hm, dcdqmrOf, dcdqmrOf, masksOf_inj] at hmean
    intro k hk
    obtain rfl | rfl : k = 0 ∨ k = 1 := by omega
    · exact hmean.2
    · exact hmean.1
  · intro hk
    constructor
    · rw [hm, dcdqmrOf, dcdqmrOf, masksOf_inj]
      exact ⟨hk 1 (by decide), hk 0 (by decide)⟩
    · rw [hw, dwdmorOf, dwdmorOf, masksOf_inj]
      exact ⟨hk 0 (by decide), hk 1 (by decide)⟩

theorem lastScanOnly_iff (x : Calibrations) : x.LastScanOnly ↔ x.NoTrace := by
  have hwords : ∀ h, ∀ i < 4, (x.result h).dwdqor i = merged i (x.tapsOf h) (x.dwdqor i) :=
    fun h i hi => dwdqor_afterHistory hi _
  constructor
  · rintro ⟨hs, hf, hse⟩
    refine ⟨fun i hi => ?_, (meanOfScan_iff _).mp hf, (meanOfScan_iff _).mp hse⟩
    rw [← hwords _ i hi, ← hwords _ i hi]
    exact hs.dwdqor i hi
  · rintro ⟨hw, hf, hse⟩
    have hf := (meanOfScan_iff _).mpr hf
    have hse := (meanOfScan_iff _).mpr hse
    refine ⟨⟨fun bit hb => ?_, fun i hi => ?_, ?_, ?_⟩, hf, hse⟩
    · have hd : ∀ h, (x.result h).dacdqr bit = dqWord x.board (x.last.windows bit) := by
        intro h
        rw [result_eq]
        exact dacdqr_setPhyDelays List.nodup_range (List.mem_range.mpr hb) _
      rw [hd, hd]
    · rw [hwords _ i hi, hwords _ i hi]
      exact hw i hi
    · rw [hf.dcdqmr, hse.dcdqmr]
    · rw [hf.dwdmor, hse.dwdmor]

def laterFirst : Calibrations where
  board := plainBoard
  dacdqr := fun _ => 0
  dwdqor := fun _ => 0
  dcdqmr := 0
  dwdmor := 0
  first := []
  second := [⟨0, fun _ => ⟨⟨0, 31⟩, ⟨10, 11⟩⟩, 32⟩]
  last := ⟨0, fun _ => ⟨⟨0, 31⟩, ⟨0, 31⟩⟩⟩

/-- The tap 15 of the earlier scan stays in the sync registers where 14 belongs. -/
theorem laterFirst_not_lastScanOnly : ¬laterFirst.LastScanOnly := by
  rintro ⟨hs, -, -⟩
  have := hs.dwdqor 0 (by decide)
  rw [result, result, dwdqor_afterHistory (by decide), dwdqor_afterHistory (by decide)] at this
  revert this
  decide +kernel

end Calibrations

end

end BismarckPreloader.Ddr
