import Mathlib.Data.Finset.Card
import Mathlib.Data.Fintype.Pigeonhole
import BismarckPreloader.Lib.Loops

/-!
# Loops that a position decides

A loop that walks through a file goes on from the position it has got to, whatever else it
has collected on the way. With finitely many positions such a loop ends exactly when it
comes back to none of them, and then within as many passes as there are positions.
-/

namespace BismarckPreloader.Loop

variable {σ ρ η : Type} {step : σ → Outcome σ ρ η} {s s' : σ}

def Stops (step : σ → Outcome σ ρ η) (s : σ) : Prop :=
  ∃ n, (run step n s).isNext = false

theorem not_isNext_of_le (h : (run step n s).isNext = false) (hnm : n ≤ m) :
    (run step m s).isNext = false := by
  rw [run_mono rfl h hnm]
  exact h

theorem exists_next (h : (run step n s).isNext = true) (hmn : m ≤ n) :
    ∃ t, run step m s = .next t := by
  cases hm : run step m s with
  | next t => exact ⟨t, rfl⟩
  | ret r =>
    rw [run_mono hm rfl hmn] at h
    cases h
  | halt e =>
    rw [run_mono hm rfl hmn] at h
    cases h

theorem Stops.later (h : Stops step s) (hn : run step n s = .next t) : Stops step t := by
  obtain ⟨m, hm⟩ := h
  refine ⟨m, ?_⟩
  rw [← run_add hn]
  exact not_isNext_of_le hm (Nat.le_add_left m n)

theorem run_inv (P : Outcome σ ρ η → Prop) (h₀ : P (.next s))
    (hstep : ∀ t, P (.next t) → P (step t)) (n : Nat) : P (run step n s) := by
  induction n generalizing s with
  | zero => exact h₀
  | succ n ih =>
    have hs := hstep s h₀
    cases ho : step s with
    | next t =>
      rw [run_succ_next ho]
      exact ih (ho ▸ hs)
    | ret r =>
      rw [run_succ_exit ho rfl]
      exact ho ▸ hs
    | halt e =>
      rw [run_succ_exit ho rfl]
      exact ho ▸ hs

-- ---------------------------------------------------------------------------
-- Positions
-- ---------------------------------------------------------------------------

section Position

variable {κ : Type}

def Decides (step : σ → Outcome σ ρ η) (pos : σ → κ) : Prop :=
  ∀ s t s', pos s = pos t → step s = .next s' → ∃ t', step t = .next t' ∧ pos t' = pos s'

variable {pos : σ → κ} {t : σ}

theorem Decides.run (h : Decides step pos) (hp : pos s = pos t) (hr : run step n s = .next s') :
    ∃ t', Loop.run step n t = .next t' ∧ pos t' = pos s' := by
  induction n generalizing s t with
  | zero =>
    cases hr
    exact ⟨t, rfl, hp.symm⟩
  | succ n ih =>
    obtain ⟨u, hs, hu⟩ := next_of_run_succ hr
    obtain ⟨v, hv, hpv⟩ := h s t u hp hs
    rw [run_succ_next hv]
    exact ih hpv.symm hu

theorem Decides.isNext_eq (h : Decides step pos) (hp : pos s = pos t) (n : Nat) :
    (Loop.run step n s).isNext = (Loop.run step n t).isNext := by
  have key : ∀ {s t : σ}, pos s = pos t → (Loop.run step n s).isNext = true →
      (Loop.run step n t).isNext = true := by
    intro s t hp hs
    obtain ⟨u, hu⟩ := exists_next hs (Nat.le_refl n)
    obtain ⟨v, hv, -⟩ := h.run hp hu
    rw [hv]
    rfl
  exact Bool.eq_iff_iff.mpr ⟨key hp, key hp.symm⟩

theorem Decides.pos_ne (h : Decides step pos) (hstop : Stops step s)
    (hr : Loop.run step (n + 1) s = .next s') : pos s' ≠ pos s := by
  classical
  intro hp
  -- otherwise it does what it did from there before, again and again
  have hgoes : ∀ k, (Loop.run step k s).isNext = true := by
    intro k
    induction k using Nat.strongRecOn with
    | ind k ih =>
      by_cases hk : k ≤ n
      · obtain ⟨u, hu⟩ := exists_next (by rw [hr]; rfl) (Nat.le_succ_of_le hk)
        rw [hu]
        rfl
      · obtain ⟨j, rfl⟩ : ∃ j, k = n + 1 + j := ⟨k - (n + 1), by omega⟩
        rw [run_add hr, h.isNext_eq hp]
        exact ih j (by omega)
  obtain ⟨k, hk⟩ := hstop
  rw [hgoes k] at hk
  cases hk

theorem Decides.stops_within (h : Decides step pos) (hstop : Stops step s) (K : Finset κ)
    (hK : ∀ n t, Loop.run step n s = .next t → (step t).isNext = true → pos t ∈ K) :
    (Loop.run step (K.card + 1) s).isNext = false := by
  classical
  by_contra hgo
  rw [Bool.not_eq_false] at hgo
  have hall : ∀ i, i ≤ K.card → ∃ t, Loop.run step i s = .next t ∧ (step t).isNext = true := by
    intro i hi
    obtain ⟨t, ht⟩ := exists_next hgo (Nat.le_succ_of_le hi)
    obtain ⟨u, hu⟩ := exists_next (m := i + 1) hgo (by omega)
    refine ⟨t, ht, ?_⟩
    rw [run_add ht] at hu
    obtain ⟨v, hs, -⟩ := next_of_run_succ hu
    rw [hs]
    rfl
  have : Nonempty σ := ⟨s⟩
  choose! u hu hgoes using hall
  obtain ⟨i, hi, j, hj, hij, hp⟩ := Finset.exists_ne_map_eq_of_card_lt_of_maps_to
    (s := Finset.range (K.card + 1)) (t := K) (f := fun i => pos (u i)) (by simp)
    (fun i hi => hK i (u i) (hu i (by simpa [Nat.lt_succ_iff] using hi))
      (hgoes i (by simpa [Nat.lt_succ_iff] using hi)))
  have hback : ∀ i j, i < j → j ≤ K.card → pos (u i) ≠ pos (u j) := by
    intro i j hlt hle hp
    obtain ⟨m, rfl⟩ : ∃ m, j = i + (m + 1) := ⟨j - i - 1, by omega⟩
    have hri := hu i (by omega)
    have hrj := hu _ hle
    rw [run_add hri] at hrj
    exact h.pos_ne (hstop.later hri) hrj hp.symm
  rw [Finset.mem_range] at hi hj
  rcases Nat.lt_or_gt_of_ne hij with hlt | hlt
  · exact hback i j hlt (by omega) hp
  · exact hback j i hlt (by omega) hp.symm

/-- On finitely many positions it ends exactly when it comes back to none. -/
theorem Decides.stops_iff [Finite κ] (h : Decides step pos) : Stops step s ↔
    ∀ n m t t', Loop.run step n s = .next t → Loop.run step (m + 1) t = .next t' →
      pos t' ≠ pos t := by
  constructor
  · intro hstop n m t t' hn hm
    exact h.pos_ne (hstop.later hn) hm
  · intro hne
    by_contra hstop
    have hall : ∀ n, ∃ t, Loop.run step n s = .next t := by
      intro n
      have hn : (Loop.run step n s).isNext = true := by
        by_contra hn
        exact hstop ⟨n, by simpa using hn⟩
      exact exists_next hn (Nat.le_refl n)
    choose u hu using hall
    obtain ⟨i, j, hij, hp⟩ := Finite.exists_ne_map_eq_of_infinite fun i => pos (u i)
    have hback : ∀ i j, i < j → pos (u j) ≠ pos (u i) := by
      intro i j hlt
      obtain ⟨m, rfl⟩ : ∃ m, j = i + (m + 1) := ⟨j - i - 1, by omega⟩
      have hrj := hu (i + (m + 1))
      rw [run_add (hu i)] at hrj
      exact hne i m _ _ (hu i) hrj
    rcases Nat.lt_or_gt_of_ne hij with hlt | hlt
    · exact hback i j hlt hp.symm
    · exact hback j i hlt hp

end Position

end BismarckPreloader.Loop
