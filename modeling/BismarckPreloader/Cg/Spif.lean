import BismarckPreloader.Lib.Loops

/-!
# The clock of the flash controller

`cg_set_spif_mhz` looks for the fastest clock that does not exceed the request,
over the divisors of the PLL and those of the controller, and writes one
register field for each. The search keeps the best frequency and the controller
divisor it came with, but not the PLL divisor: when it has gone through all of
them without an exact hit, the last PLL divisor is written. `cg_get_spif_mhz`
then reads the frequency of that pair.
-/

namespace BismarckPreloader.Spif

/-- `cg_dev_freq_t`, the fields these functions read. -/
structure Target where
  memMhz : UInt16
  lxMhz : UInt16
  spifMhz : UInt16

/-- What `boot_sel` and `_cg_is_fpga` say. -/
structure Board where
  isNor : Bool
  isFpga : Bool
  deriving DecidableEq

/-- `spif_pll_para_t` -/
structure PllPara where
  maxMhz : Nat
  divStart : Nat
  divEnd : Nat
  deriving DecidableEq

/-- The register fields `ck250m_spif_pll_div` and `spi_clk_div`. -/
structure Regs where
  pllDiv : Nat
  spiClkDiv : Nat

def roundDiv (x y : Nat) : Nat := (x + y / 2) / y

def cgGetSpifPllPara (board : Board) (target : Target) : PllPara :=
  if board.isNor then
    if board.isFpga then ⟨target.memMhz.toNat, 1, 1⟩ else ⟨1000, 4, 7⟩
  else ⟨target.lxMhz.toNat, 1, 1⟩

def spifDivs : List Nat := [2, 4, 6, 8, 10]

def pllDivs (pll : PllPara) : List Nat := List.range' pll.divStart (pll.divEnd + 1 - pll.divStart)

def mhz (pll : PllPara) (pair : Nat × Nat) : Nat := roundDiv (roundDiv pll.maxMhz pair.1) pair.2

def pairs (pll : PllPara) : List (Nat × Nat) :=
  (pllDivs pll).flatMap fun p => spifDivs.map fun d => (p, d)

structure Best where
  mhz : Nat
  div : Nat
  deriving DecidableEq

def searchStep (pll : PllPara) (expMhz : Nat) (best : Best) (pair : Nat × Nat) :
    Outcome Best (Nat × Nat) Empty :=
  if best.mhz < mhz pll pair ∧ mhz pll pair ≤ expMhz then
    if mhz pll pair = expMhz then .ret pair else .next ⟨mhz pll pair, pair.2⟩
  else .next best

def search (pll : PllPara) (expMhz : Nat) : Outcome Best (Nat × Nat) Empty :=
  Scan.run (searchStep pll expMhz) ⟨0, 10⟩ (pairs pll)

def chosen (pll : PllPara) (expMhz : Nat) : Nat × Nat :=
  match search pll expMhz with
  | .ret pair => pair
  | .next best => (pll.divEnd, best.div)

def cgSetSpifMhz (board : Board) (target : Target) (regs : Regs) : Regs :=
  let pll := cgGetSpifPllPara board target
  let (pllDiv, bestDiv) := chosen pll target.spifMhz.toNat
  ⟨if 1 < pllDiv then pllDiv - pll.divStart else regs.pllDiv, bestDiv / 2 - 1⟩

def cgGetSpifMhz (board : Board) (target : Target) (regs : Regs) : Nat :=
  let pll := cgGetSpifPllPara board target
  let div := if !board.isFpga && board.isNor then regs.pllDiv + 4 else 1
  roundDiv (roundDiv pll.maxMhz div) ((regs.spiClkDiv + 1) * 2)

def achievable (pll : PllPara) : List Nat := (pairs pll).map (mhz pll)

/-- The largest achievable frequency within the request, the smallest one when
there is none. -/
structure Optimal (vals : List Nat) (expMhz got : Nat) : Prop where
  mem : got ∈ vals
  largest : ∀ v ∈ vals, v ≤ expMhz → got ≤ expMhz ∧ v ≤ got
  smallest : (∀ v ∈ vals, expMhz < v) → ∀ v ∈ vals, got ≤ v

theorem Optimal.unique (h : Optimal vals e got) (h' : Optimal vals e got') : got = got' := by
  by_cases hv : ∃ v ∈ vals, v ≤ e
  · obtain ⟨v, hv, hle⟩ := hv
    have hg := (h.largest v hv hle).1
    have hg' := (h'.largest v hv hle).1
    exact Nat.le_antisymm (h'.largest got h.mem hg).2 (h.largest got' h'.mem hg').2
  · have hlt : ∀ v ∈ vals, e < v := fun v hm => Nat.lt_of_not_le fun hle => hv ⟨v, hm, hle⟩
    exact Nat.le_antisymm (h.smallest hlt got' h'.mem) (h'.smallest hlt got h.mem)

theorem optimal_of_mem (h : e ∈ vals) : Optimal vals e e where
  mem := h
  largest _ _ hle := ⟨Nat.le_refl e, hle⟩
  smallest hlt := absurd (hlt e h) (Nat.lt_irrefl e)

theorem mem_pairs {pll : PllPara} {pair : Nat × Nat} :
    pair ∈ pairs pll ↔ pair.1 ∈ pllDivs pll ∧ pair.2 ∈ spifDivs := by
  obtain ⟨p, d⟩ := pair
  simp only [pairs, List.mem_flatMap, List.mem_map, Prod.mk.injEq]
  constructor
  · rintro ⟨p', hp, d', hd, rfl, rfl⟩
    exact ⟨hp, hd⟩
  · rintro ⟨hp, hd⟩
    exact ⟨p, hp, d, hd, rfl, rfl⟩

theorem spifDiv_written (hd : d ∈ spifDivs) : (d / 2 - 1 + 1) * 2 = d := by
  simp only [spifDivs, List.mem_cons, List.not_mem_nil, or_false] at hd
  rcases hd with rfl | rfl | rfl | rfl | rfl <;> rfl

-- Rounding halves up keeps the order of the even divisors.
theorem roundDiv_ten_le (x : Nat) (hd : d ∈ spifDivs) : roundDiv x 10 ≤ roundDiv x d := by
  simp only [spifDivs, List.mem_cons, List.not_mem_nil, or_false] at hd
  rcases hd with rfl | rfl | rfl | rfl | rfl <;> simp only [roundDiv] <;> omega

-- ---------------------------------------------------------------------------
-- The search
-- ---------------------------------------------------------------------------

/-- The best of the pairs seen: none of them, and the widest divisor stands, or
the largest value within the request. -/
def BestOf (pll : PllPara) (e : Nat) (seen : List (Nat × Nat)) (best : Best) : Prop :=
  (∀ pair ∈ seen, mhz pll pair ≤ e → mhz pll pair ≤ best.mhz) ∧
  (best = ⟨0, 10⟩ ∨
    best.mhz ≤ e ∧ ∃ pair ∈ seen, mhz pll pair = best.mhz ∧ pair.2 = best.div)

theorem BestOf.step (h : BestOf pll e seen best)
    (hs : searchStep pll e best pair = .next best') : BestOf pll e (seen ++ [pair]) best' := by
  obtain ⟨hmax, hfrom⟩ := h
  simp only [searchStep] at hs
  split at hs
  · rename_i hnew
    split at hs
    · cases hs
    · cases hs
      refine ⟨?_, .inr ⟨hnew.2, pair, by simp, rfl, rfl⟩⟩
      simp only [List.mem_append, List.mem_singleton]
      rintro q (hq | rfl) hle
      · exact Nat.le_trans (hmax q hq hle) (Nat.le_of_lt hnew.1)
      · exact Nat.le_refl _
  · rename_i hold
    cases hs
    refine ⟨?_, hfrom.imp_right ?_⟩
    · simp only [List.mem_append, List.mem_singleton]
      rintro q (hq | rfl) hle
      · exact hmax q hq hle
      · exact Nat.le_of_not_lt fun hlt => hold ⟨hlt, hle⟩
    · rintro ⟨hle, q, hq, hv⟩
      exact ⟨hle, q, List.mem_append_left _ hq, hv⟩

theorem search_next (h : search pll e = .next best) : BestOf pll e (pairs pll) best :=
  Scan.run_next_ind (BestOf pll e) ⟨by simp, .inl rfl⟩
    (fun _ _ _ _ hb hs => hb.step hs) h

theorem search_ret (h : search pll e = .ret pair) : pair ∈ pairs pll ∧ mhz pll pair = e := by
  obtain ⟨best, x, hr, hs⟩ := (Scan.run_eq_iff rfl).mp h
  simp only [searchStep] at hs
  split at hs
  · split at hs
    · rename_i heq
      cases hs
      exact ⟨hr.mem, heq⟩
    · cases hs
  · cases hs

theorem chosen_ret (h : search pll e = .ret pair) : chosen pll e = pair := by simp [chosen, h]

theorem chosen_next (h : search pll e = .next best) : chosen pll e = (pll.divEnd, best.div) := by
  simp [chosen, h]

theorem optimal_of_best (hmax : ∀ pair ∈ pairs pll, mhz pll pair ≤ e → mhz pll pair ≤ m)
    (hmem : m ∈ achievable pll) (hle : m ≤ e) : Optimal (achievable pll) e m where
  mem := hmem
  largest := by
    simp only [achievable, List.mem_map]
    rintro v ⟨q, hq, rfl⟩ hqe
    exact ⟨hle, hmax q hq hqe⟩
  smallest hlt := absurd (hlt m hmem) (Nat.not_lt_of_le hle)

theorem optimal_of_zeros (hmax : ∀ pair ∈ pairs pll, mhz pll pair ≤ e → mhz pll pair ≤ 0)
    (hmem : m ∈ achievable pll) (hmin : ∀ v ∈ achievable pll, m ≤ v) :
    Optimal (achievable pll) e m where
  mem := hmem
  largest := by
    intro v hv hle
    have hmv := hmin v hv
    have h0 : v ≤ 0 := by
      simp only [achievable, List.mem_map] at hv
      obtain ⟨pair, hp, rfl⟩ := hv
      exact hmax pair hp hle
    omega
  smallest _ := hmin

theorem mem_pairs_one (h : pair ∈ pairs ⟨maxMhz, 1, 1⟩) : pair.1 = 1 ∧ pair.2 ∈ spifDivs := by
  obtain ⟨h1, h2⟩ := mem_pairs.mp h
  simp only [pllDivs, List.mem_range'_1] at h1
  exact ⟨by omega, h2⟩

theorem ten_smallest (maxMhz : Nat) :
    ∀ v ∈ achievable ⟨maxMhz, 1, 1⟩, mhz ⟨maxMhz, 1, 1⟩ (1, 10) ≤ v := by
  simp only [achievable, List.mem_map]
  rintro v ⟨⟨p, d⟩, hp, rfl⟩
  obtain ⟨h1, h2⟩ := mem_pairs_one hp
  cases h1
  exact roundDiv_ten_le _ h2

theorem chosen_optimal_one (maxMhz e : Nat) :
    (chosen ⟨maxMhz, 1, 1⟩ e).1 = 1 ∧ (chosen ⟨maxMhz, 1, 1⟩ e).2 ∈ spifDivs ∧
      Optimal (achievable ⟨maxMhz, 1, 1⟩) e (mhz ⟨maxMhz, 1, 1⟩ (chosen ⟨maxMhz, 1, 1⟩ e)) := by
  cases hs : search ⟨maxMhz, 1, 1⟩ e with
  | halt h => cases h
  | ret pair =>
    obtain ⟨hm, hv⟩ := search_ret hs
    obtain ⟨h1, h2⟩ := mem_pairs_one hm
    rw [chosen_ret hs, hv]
    exact ⟨h1, h2, optimal_of_mem (hv ▸ List.mem_map_of_mem hm)⟩
  | next best =>
    obtain ⟨hmax, hfrom⟩ := search_next hs
    rw [chosen_next hs]
    rcases hfrom with rfl | ⟨hle, pair, hm, hv, hd⟩
    · have hten : 10 ∈ spifDivs := by decide
      have hpair : (1, 10) ∈ pairs ⟨maxMhz, 1, 1⟩ := mem_pairs.mpr ⟨List.mem_cons_self, hten⟩
      exact ⟨rfl, hten,
        optimal_of_zeros hmax (List.mem_map_of_mem hpair) (ten_smallest maxMhz)⟩
    · obtain ⟨h1, h2⟩ := mem_pairs_one hm
      have hpair : (1, best.div) = pair := by rw [← h1, ← hd]
      refine ⟨rfl, hd ▸ h2, ?_⟩
      dsimp only
      rw [hpair, hv]
      exact optimal_of_best hmax (hv ▸ List.mem_map_of_mem hm) hle

-- ---------------------------------------------------------------------------
-- NOR flash on the chip: 1000 MHz through one of four divisors
-- ---------------------------------------------------------------------------

def norPll : PllPara := ⟨1000, 4, 7⟩

/-- The requests that come out right there: those met exactly, those below every
frequency, and those for which the last PLL divisor has the best one. -/
def NorServed (e : Nat) : Prop :=
  e ∈ achievable norPll ∨ (∀ v ∈ achievable norPll, e < v) ∨
    ∃ d ∈ spifDivs, Optimal (achievable norPll) e (mhz norPll (7, d))

theorem optimal_iff (vals : List Nat) (e got : Nat) : Optimal vals e got ↔
    got ∈ vals ∧ (∀ v ∈ vals, v ≤ e → got ≤ e ∧ v ≤ got) ∧
      ((∀ v ∈ vals, e < v) → ∀ v ∈ vals, got ≤ v) :=
  ⟨fun h => ⟨h.mem, h.largest, h.smallest⟩, fun h => ⟨h.1, h.2.1, h.2.2⟩⟩

instance (vals : List Nat) (e got : Nat) : Decidable (Optimal vals e got) :=
  decidable_of_iff' _ (optimal_iff vals e got)

instance (e : Nat) : Decidable (NorServed e) :=
  inferInstanceAs (Decidable (_ ∨ _ ∨ _))

theorem norPll_values : achievable norPll =
    [125, 63, 42, 31, 25, 100, 50, 33, 25, 20, 84, 42, 28, 21, 17, 72, 36, 24, 18, 14] := by
  decide

theorem norPll_div (e : Nat) :
    (chosen norPll e).1 ∈ [4, 5, 6, 7] ∧ (chosen norPll e).2 ∈ spifDivs := by
  cases hs : search norPll e with
  | halt h => cases h
  | ret pair =>
    rw [chosen_ret hs]
    exact mem_pairs.mp (search_ret hs).1
  | next best =>
    rw [chosen_next hs]
    refine ⟨by simp [norPll], ?_⟩
    rcases (search_next hs).2 with rfl | ⟨-, pair, hm, -, hd⟩
    · decide
    · exact hd ▸ (mem_pairs.mp hm).2

theorem nor_small : ∀ e < 126,
    Optimal (achievable norPll) e (mhz norPll (chosen norPll e)) ↔ NorServed e := by
  decide +kernel

/-- Above the fastest frequency the search ends with it, and with a PLL divisor
that does not go with it. -/
theorem nor_large (he : 126 ≤ e) : chosen norPll e = (7, 2) := by
  have hs : search norPll e = .next ⟨125, 2⟩ := by
    have h : ∀ v, v ≤ 125 → v ≤ e ∧ v ≠ e := fun v hv => by omega
    simp [search, pairs, pllDivs, norPll, spifDivs, Scan.run, searchStep, mhz, roundDiv,
      List.range', h 125]
  rw [chosen_next hs]
  rfl

theorem nor_iff (e : Nat) :
    Optimal (achievable norPll) e (mhz norPll (chosen norPll e)) ↔ NorServed e := by
  rcases Nat.lt_or_ge e 126 with he | he
  · exact nor_small e he
  · have hle : ∀ v ∈ achievable norPll, v ≤ 125 := by
      rw [norPll_values]
      decide
    have hmem : 125 ∈ achievable norPll := by
      rw [norPll_values]
      decide
    have hbest : Optimal (achievable norPll) e 125 := by
      refine ⟨hmem, fun v hv _ => ⟨by omega, hle v hv⟩, fun hlt => ?_⟩
      have := hlt 125 hmem
      omega
    refine iff_of_false (fun h => ?_) ?_
    · rw [nor_large he] at h
      exact absurd (h.unique hbest) (by decide)
    · rintro (hm | hlt | ⟨d, hd, hopt⟩)
      · have := hle e hm
        omega
      · have := hlt 125 hbest.mem
        omega
      · have hne : ∀ d ∈ spifDivs, mhz norPll (7, d) ≠ 125 := by decide
        exact hne d hd (hopt.unique hbest)

theorem read_back (board : Board) (target : Target) (regs : Regs) :
    cgGetSpifMhz board target (cgSetSpifMhz board target regs) =
      mhz (cgGetSpifPllPara board target)
        (chosen (cgGetSpifPllPara board target) target.spifMhz.toNat) := by
  unfold cgGetSpifMhz cgSetSpifMhz mhz
  obtain ⟨isNor, isFpga⟩ := board
  cases isNor <;> cases isFpga
  case true.false =>
    obtain ⟨hp, hd⟩ := norPll_div target.spifMhz.toNat
    have hpara : cgGetSpifPllPara ⟨true, false⟩ target = norPll := rfl
    rw [hpara]
    dsimp only
    generalize chosen norPll target.spifMhz.toNat = pair at hp hd ⊢
    simp only [List.mem_cons, List.not_mem_nil, or_false] at hp
    rcases hp with h | h | h | h <;> simp [h, norPll, spifDiv_written hd]
  all_goals
    simp [cgGetSpifPllPara, chosen_optimal_one, spifDiv_written (chosen_optimal_one _ _).2.1]

def Board.norOnChip (board : Board) : Bool := board.isNor && !board.isFpga

theorem spif_mhz_optimal_iff (board : Board) (target : Target) (regs : Regs) :
    Optimal (achievable (cgGetSpifPllPara board target)) target.spifMhz.toNat
        (cgGetSpifMhz board target (cgSetSpifMhz board target regs)) ↔
      (board.norOnChip = true → NorServed target.spifMhz.toNat) := by
  rw [read_back]
  obtain ⟨isNor, isFpga⟩ := board
  cases isNor <;> cases isFpga
  case true.false =>
    simp only [Board.norOnChip, Bool.not_false, Bool.and_self, forall_const]
    exact nor_iff target.spifMhz.toNat
  all_goals
    exact iff_of_true (chosen_optimal_one _ _).2.2 (by simp [Board.norOnChip])

theorem nor_133_mhz_runs_at_72 :
    ¬ Optimal (achievable (cgGetSpifPllPara ⟨true, false⟩ ⟨400, 200, 133⟩)) 133
        (cgGetSpifMhz ⟨true, false⟩ ⟨400, 200, 133⟩
          (cgSetSpifMhz ⟨true, false⟩ ⟨400, 200, 133⟩ ⟨0, 0⟩)) ∧
      cgGetSpifMhz ⟨true, false⟩ ⟨400, 200, 133⟩
        (cgSetSpifMhz ⟨true, false⟩ ⟨400, 200, 133⟩ ⟨0, 0⟩) = 72 ∧
      125 ∈ achievable (cgGetSpifPllPara ⟨true, false⟩ ⟨400, 200, 133⟩) := by
  decide +kernel

end BismarckPreloader.Spif
