import Mathlib.Algebra.GroupWithZero.Nat
import Mathlib.Data.Nat.ModEq

/-!
# Milliseconds from a 28-bit counter

The hardware counts ticks modulo 2^28. `otto_lx_timer_get_timer` keeps a count
of milliseconds, rebuilds from it the tick at which the last whole millisecond
began, and adds the whole milliseconds that have passed since. Nothing else
survives between two calls: the ticks of the millisecond under way are never
stored.
-/

namespace BismarckPreloader.Timer

/-- `TIMER_STEP_PER_US`, which the source requires to be a power of two. -/
structure Rate where
  stepPerUs : UInt32
  power : ∃ k, stepPerUs.toNat = 2 ^ k

def Rate.ticksPerMs (rate : Rate) : Nat := 1000 * rate.stepPerUs.toNat

def timerCnt (t : Nat) : UInt32 := UInt32.ofNat (t % 2 ^ 28)

def otto_lx_timer_get_timer (stepPerUs now base msAccumulator : UInt32) : UInt32 × UInt32 :=
  let stepPerMs := 1000 * stepPerUs
  let d := (now - ((msAccumulator * stepPerMs) &&& 0x0fffffff)) &&& 0x0fffffff
  let c := d / stepPerMs
  (msAccumulator + c - base, msAccumulator + c)

structure Call where
  tick : Nat
  base : UInt32

structure Reading where
  call : Call
  before : UInt32
  after : UInt32
  result : UInt32

def readings (rate : Rate) : UInt32 → List Call → List Reading
  | _, [] => []
  | acc, call :: calls =>
    let (result, acc') :=
      otto_lx_timer_get_timer rate.stepPerUs (timerCnt call.tick) call.base acc
    ⟨call, acc, acc', result⟩ :: readings rate acc' calls

/-- Calls from tick 0 on, no two neighbours further apart than the counter can
tell: 2^28 ticks less one millisecond. -/
structure History (rate : Rate) where
  calls : List Call
  spaced : List.IsChain (fun t t' => t ≤ t' ∧ t' + rate.ticksPerMs ≤ t + 2 ^ 28)
    (0 :: calls.map Call.tick)

/-- Every reading, the first one after tick `t`, counts the whole milliseconds
since tick 0, and adds exactly those that ended since the reading before. -/
def Exact (rate : Rate) : Nat → List Reading → Prop
  | _, [] => True
  | t, r :: rs =>
    r.after.toNat = r.call.tick / rate.ticksPerMs % 2 ^ 32 ∧
    r.result.toNat = (r.call.tick / rate.ticksPerMs + 2 ^ 32 - r.call.base.toNat) % 2 ^ 32 ∧
    (r.after - r.before).toNat = r.call.tick / rate.ticksPerMs - t / rate.ticksPerMs ∧
    Exact rate r.call.tick rs

-- ---------------------------------------------------------------------------
-- One call
-- ---------------------------------------------------------------------------

theorem toNat_and_28 (x : UInt32) : (x &&& 0x0fffffff).toNat = x.toNat % 2 ^ 28 := by
  rw [UInt32.toNat_and]
  exact Nat.and_two_pow_sub_one_eq_mod x.toNat 28

theorem timerCnt_toNat (t : Nat) : (timerCnt t).toNat = t % 2 ^ 28 := by
  rw [timerCnt, UInt32.toNat_ofNat']
  omega

theorem stepPerMs_toNat {rate : Rate} (h : rate.ticksPerMs ≤ 2 ^ 28) :
    (1000 * rate.stepPerUs).toNat = rate.ticksPerMs := by
  rw [UInt32.toNat_mul]
  exact Nat.mod_eq_of_lt (by unfold Rate.ticksPerMs at h; simp; omega)

/-- The tick at which the last counted millisecond began, as far as 28 bits show
it: the product wraps at 2^32, which 2^28 divides. -/
theorem begin_mod (q ms : Nat) : q % 2 ^ 32 * ms % 2 ^ 32 % 2 ^ 28 = q * ms % 2 ^ 28 := by
  rw [Nat.mod_mod_of_dvd _ (by decide)]
  have h : q % 2 ^ 32 ≡ q [MOD 2 ^ 28] := (Nat.mod_modEq q (2 ^ 32)).of_dvd (by decide)
  exact h.mul_right ms

theorem elapsed_ticks (acc stepPerMs : UInt32) {q : Nat} (hacc : acc.toNat = q % 2 ^ 32)
    (hms : stepPerMs.toNat = ms) (hq : q * ms ≤ t) (ht : t < q * ms + 2 ^ 28) :
    ((timerCnt t - ((acc * stepPerMs) &&& 0x0fffffff)) &&& 0x0fffffff).toNat = t - q * ms := by
  have hx : ((acc * stepPerMs) &&& 0x0fffffff).toNat = q * ms % 2 ^ 28 := by
    rw [toNat_and_28, UInt32.toNat_mul, hacc, hms, begin_mod]
  rw [toNat_and_28, UInt32.toNat_sub, hx, timerCnt_toNat]
  omega

theorem elapsed_ms (rate : Rate) (acc : UInt32) {last : Nat}
    (hacc : acc.toNat = last / rate.ticksPerMs % 2 ^ 32) (hle : last ≤ t)
    (hgap : t + rate.ticksPerMs ≤ last + 2 ^ 28) :
    ((timerCnt t - ((acc * (1000 * rate.stepPerUs)) &&& 0x0fffffff)) &&& 0x0fffffff
      ).toNat / (1000 * rate.stepPerUs).toNat = t / rate.ticksPerMs - last / rate.ticksPerMs := by
  have hms : (1000 * rate.stepPerUs).toNat = rate.ticksPerMs := stepPerMs_toNat (by omega)
  obtain ⟨k, hk⟩ := rate.power
  have hpos : 0 < rate.ticksPerMs := by
    unfold Rate.ticksPerMs
    rw [hk]
    exact Nat.mul_pos (by decide) (Nat.two_pow_pos k)
  have hbegin := Nat.div_mul_le_self last rate.ticksPerMs
  have hunder := Nat.lt_div_mul_add (a := last) hpos
  rw [elapsed_ticks acc _ hacc hms (by omega) (by omega), hms, Nat.mul_comm, Nat.sub_mul_div]

theorem get_timer_exact (rate : Rate) (base acc : UInt32) {last : Nat}
    (hacc : acc.toNat = last / rate.ticksPerMs % 2 ^ 32) (hle : last ≤ t)
    (hgap : t + rate.ticksPerMs ≤ last + 2 ^ 28) :
    let out := otto_lx_timer_get_timer rate.stepPerUs (timerCnt t) base acc
    out.2.toNat = t / rate.ticksPerMs % 2 ^ 32 ∧
      out.1.toNat = (t / rate.ticksPerMs + 2 ^ 32 - base.toNat) % 2 ^ 32 ∧
      (out.2 - acc).toNat = t / rate.ticksPerMs - last / rate.ticksPerMs := by
  have hc := elapsed_ms rate acc hacc hle hgap
  rw [← UInt32.toNat_div] at hc
  have hmono : last / rate.ticksPerMs ≤ t / rate.ticksPerMs := Nat.div_le_div_right hle
  have hbase := base.toNat_lt
  have hafter : (otto_lx_timer_get_timer rate.stepPerUs (timerCnt t) base acc).2.toNat =
      t / rate.ticksPerMs % 2 ^ 32 := by
    simp only [otto_lx_timer_get_timer]
    rw [UInt32.toNat_add, hc, hacc]
    omega
  refine ⟨hafter, ?_, ?_⟩
  · change ((otto_lx_timer_get_timer rate.stepPerUs (timerCnt t) base acc).2 - base).toNat = _
    rw [UInt32.toNat_sub, hafter]
    generalize t / rate.ticksPerMs = q
    omega
  · simp only [otto_lx_timer_get_timer]
    rw [UInt32.add_comm, UInt32.add_sub_cancel, hc]

theorem readings_exact (rate : Rate) : ∀ (calls : List Call) (last : Nat) (acc : UInt32),
    acc.toNat = last / rate.ticksPerMs % 2 ^ 32 →
    List.IsChain (fun t t' => t ≤ t' ∧ t' + rate.ticksPerMs ≤ t + 2 ^ 28)
      (last :: calls.map Call.tick) →
    Exact rate last (readings rate acc calls)
  | [], _, _, _, _ => trivial
  | call :: calls, last, acc, hacc, hs => by
    rw [List.map_cons, List.isChain_cons_cons] at hs
    obtain ⟨⟨hle, hgap⟩, hs⟩ := hs
    obtain ⟨hafter, hresult, hadded⟩ := get_timer_exact rate call.base acc hacc hle hgap
    exact ⟨hafter, hresult, hadded, readings_exact rate calls call.tick _ hafter hs⟩

theorem get_timer_counts_ms (rate : Rate) (history : History rate) :
    Exact rate 0 (readings rate 0 history.calls) :=
  readings_exact rate history.calls 0 0 (by simp) history.spaced

-- The counter wraps round before the third call.
theorem three_calls_count_ms : ∃ (rate : Rate) (history : History rate), rate.stepPerUs = 1 ∧
    history.calls = [⟨500, 0⟩, ⟨2500, 0⟩, ⟨2 ^ 28 + 10, 1⟩] ∧
      Exact rate 0 (readings rate 0 history.calls) :=
  ⟨⟨1, 0, rfl⟩, ⟨[⟨500, 0⟩, ⟨2500, 0⟩, ⟨2 ^ 28 + 10, 1⟩], by simp [Rate.ticksPerMs]⟩, rfl, rfl,
    get_timer_counts_ms _ _⟩

end BismarckPreloader.Timer
