import Mathlib.Data.List.Basic

/-!
# Loops with early exits

A loop body maps a state to an `Outcome`: go round again, return a value, or
halt for good (an access out of range, a deliberate endless loop). `Scan.run`
drives a body over a list of inputs, one pass per input; `Loop.run` drives a
body without inputs for a number of passes.

`Scan.Reaches` names the states a scan is in when it takes an input, and
`Scan.reaches_inv` is the invariant rule. For `Loop` the rules are that a
finished run stays finished and that a decreasing measure bounds the passes.
-/

namespace BismarckPreloader

inductive Outcome (σ ρ η : Type) where
  | next (s : σ)
  | ret (r : ρ)
  | halt (h : η)
  deriving DecidableEq

namespace Outcome

variable {σ ρ η : Type}

def isNext : Outcome σ ρ η → Bool
  | .next _ => true
  | _ => false

@[simp] theorem isNext_next (s : σ) : (Outcome.next s : Outcome σ ρ η).isNext = true := rfl
@[simp] theorem isNext_ret (r : ρ) : (Outcome.ret r : Outcome σ ρ η).isNext = false := rfl
@[simp] theorem isNext_halt (h : η) : (Outcome.halt h : Outcome σ ρ η).isNext = false := rfl

def attempt {α : Type} (x : Except η α) (k : α → Outcome σ ρ η) : Outcome σ ρ η :=
  match x with
  | .ok a => k a
  | .error e => .halt e

@[simp] theorem attempt_ok {α : Type} (a : α) (k : α → Outcome σ ρ η) :
    attempt (.ok a) k = k a := rfl
@[simp] theorem attempt_error {α : Type} (e : η) (k : α → Outcome σ ρ η) :
    attempt (.error e) k = .halt e := rfl

end Outcome

@[simp] theorem ok_bind {ε α β : Type} (a : α) (f : α → Except ε β) :
    ((Except.ok a : Except ε α) >>= f) = f a := rfl

@[simp] theorem error_bind {ε α β : Type} (e : ε) (f : α → Except ε β) :
    ((Except.error e : Except ε α) >>= f) = .error e := rfl

theorem bind_ok {ε α β : Type} {x : Except ε α} {f : α → Except ε β} {b : β} :
    (x >>= f) = .ok b ↔ ∃ a, x = .ok a ∧ f a = .ok b := by
  cases x with
  | error e =>
    refine iff_of_false (fun h => ?_) ?_
    · cases h
    · rintro ⟨a, h, -⟩
      cases h
  | ok a =>
    constructor
    · intro h
      exact ⟨a, rfl, h⟩
    · rintro ⟨a', h, hf⟩
      cases h
      exact hf

theorem bind_error {ε α β : Type} {x : Except ε α} {f : α → Except ε β} {e : ε} :
    (x >>= f) = .error e ↔ x = .error e ∨ ∃ a, x = .ok a ∧ f a = .error e := by
  cases x with
  | error e' =>
    constructor
    · intro h
      cases h
      exact .inl rfl
    · rintro (h | ⟨a, h, -⟩)
      · cases h
        rfl
      · cases h
  | ok a =>
    constructor
    · intro h
      exact .inr ⟨a, rfl, h⟩
    · rintro (h | ⟨a', h, hf⟩)
      · cases h
      · cases h
        exact hf

-- ---------------------------------------------------------------------------
-- Scans: one pass per input
-- ---------------------------------------------------------------------------

namespace Scan

variable {σ ρ η α : Type}

def run (step : σ → α → Outcome σ ρ η) : σ → List α → Outcome σ ρ η
  | s, [] => .next s
  | s, x :: xs => match step s x with
    | .next s' => run step s' xs
    | .ret r => .ret r
    | .halt h => .halt h

def Reaches (step : σ → α → Outcome σ ρ η) (s₀ : σ) (xs : List α) (s : σ) (x : α) : Prop :=
  ∃ before after, xs = before ++ x :: after ∧ run step s₀ before = .next s

variable {step : σ → α → Outcome σ ρ η} {s₀ s s' : σ} {x y : α} {xs ys : List α}

@[simp] theorem run_nil : run step s [] = .next s := rfl

theorem run_cons_next (h : step s x = .next s') : run step s (x :: xs) = run step s' xs := by
  simp [run, h]

theorem run_cons_ret {r : ρ} (h : step s x = .ret r) : run step s (x :: xs) = .ret r := by
  simp [run, h]

theorem run_cons_halt {e : η} (h : step s x = .halt e) : run step s (x :: xs) = .halt e := by
  simp [run, h]

theorem run_append (h : run step s xs = .next s') : run step s (xs ++ ys) = run step s' ys := by
  induction xs generalizing s with
  | nil =>
    cases h
    rfl
  | cons x xs ih =>
    cases hx : step s x with
    | next t =>
      rw [run_cons_next hx] at h
      rw [List.cons_append, run_cons_next hx, ih h]
    | ret r => simp [run_cons_ret hx] at h
    | halt e => simp [run_cons_halt hx] at h

theorem run_map (f : β → α) (s : σ) (zs : List β) :
    run step s (zs.map f) = run (fun s z => step s (f z)) s zs := by
  induction zs generalizing s with
  | nil => rfl
  | cons z zs ih =>
    simp only [List.map_cons, run]
    cases step s (f z) with
    | next s' => exact ih s'
    | ret r => rfl
    | halt e => rfl

theorem reaches_head : Reaches step s (x :: xs) s x := ⟨[], xs, rfl, rfl⟩

theorem Reaches.tail (hx : step s x = .next s') (h : Reaches step s' xs t y) :
    Reaches step s (x :: xs) t y := by
  obtain ⟨before, after, rfl, hr⟩ := h
  exact ⟨x :: before, after, rfl, by rw [run_cons_next hx, hr]⟩

theorem Reaches.cases (h : Reaches step s (x :: xs) t y) :
    (t = s ∧ y = x) ∨ ∃ s', step s x = .next s' ∧ Reaches step s' xs t y := by
  obtain ⟨before, after, he, hr⟩ := h
  cases before with
  | nil =>
    simp only [List.nil_append, List.cons.injEq] at he
    cases hr
    exact .inl ⟨rfl, he.1.symm⟩
  | cons z zs =>
    simp only [List.cons_append, List.cons.injEq] at he
    obtain ⟨rfl, rfl⟩ := he
    cases hx : step s x with
    | next s' =>
      rw [run_cons_next hx] at hr
      exact .inr ⟨s', rfl, zs, after, rfl, hr⟩
    | ret r => simp [run_cons_ret hx] at hr
    | halt e => simp [run_cons_halt hx] at hr

theorem Reaches.mem (h : Reaches step s₀ xs s x) : x ∈ xs := by
  obtain ⟨before, after, rfl, -⟩ := h
  simp

/-- The invariant rule: what every pass from a reached state keeps holds whenever
an input is taken. -/
theorem reaches_inv (Inv : σ → Prop) (h₀ : Inv s₀)
    (hstep : ∀ s x s', Reaches step s₀ xs s x → Inv s → step s x = .next s' → Inv s')
    (h : Reaches step s₀ xs s x) : Inv s := by
  induction xs generalizing s₀ with
  | nil => exact absurd h.mem List.not_mem_nil
  | cons z zs ih =>
    rcases h.cases with ⟨rfl, -⟩ | ⟨s', hs, hr⟩
    · exact h₀
    · exact ih (hstep _ _ _ reaches_head h₀ hs) (fun t y t' ht => hstep t y t' (ht.tail hs)) hr

theorem run_next_ind (Inv : List α → σ → Prop) (h₀ : Inv [] s₀)
    (hstep : ∀ seen s x s', Inv seen s → step s x = .next s' → Inv (seen ++ [x]) s')
    (h : run step s₀ xs = .next s) : Inv xs s := by
  suffices hgen : ∀ seen t, Inv seen t → run step t xs = .next s → Inv (seen ++ xs) s from
    hgen [] s₀ h₀ h
  clear h h₀
  induction xs with
  | nil =>
    intro seen t ht h
    cases h
    rwa [List.append_nil]
  | cons x xs ih =>
    intro seen t ht h
    cases hx : step t x with
    | next t' =>
      rw [run_cons_next hx] at h
      rw [List.append_cons]
      exact ih (seen ++ [x]) t' (hstep seen t x t' ht hx) h
    | ret r => simp [run_cons_ret hx] at h
    | halt e => simp [run_cons_halt hx] at h

theorem run_inv (P : Outcome σ ρ η → Prop) (h₀ : P (.next s₀))
    (hstep : ∀ s x, P (.next s) → P (step s x)) (xs : List α) : P (run step s₀ xs) := by
  induction xs generalizing s₀ with
  | nil => exact h₀
  | cons x xs ih =>
    have hx := hstep s₀ x h₀
    cases ho : step s₀ x with
    | next s' =>
      rw [run_cons_next ho]
      exact ih (ho ▸ hx)
    | ret r =>
      rw [run_cons_ret ho]
      exact ho ▸ hx
    | halt e =>
      rw [run_cons_halt ho]
      exact ho ▸ hx

theorem Reaches.rest (h : Reaches step s₀ xs s x) :
    ∃ after, run step s₀ xs = run step s (x :: after) := by
  obtain ⟨before, after, rfl, hr⟩ := h
  exact ⟨after, run_append hr⟩

theorem run_ret_ind {Q : σ → ρ → Prop} {r : ρ}
    (hnext : ∀ s x s' r, step s x = .next s' → Q s' r → Q s r)
    (hret : ∀ s x r, step s x = .ret r → Q s r) (h : run step s xs = .ret r) : Q s r := by
  induction xs generalizing s with
  | nil => simp at h
  | cons x xs ih =>
    cases hx : step s x with
    | next s' =>
      rw [run_cons_next hx] at h
      exact hnext s x s' r hx (ih h)
    | ret r' =>
      rw [run_cons_ret hx] at h
      cases h
      exact hret s x r hx
    | halt e => simp [run_cons_halt hx] at h

theorem run_eq_iff {o : Outcome σ ρ η} (ho : o.isNext = false) :
    run step s₀ xs = o ↔ ∃ s x, Reaches step s₀ xs s x ∧ step s x = o := by
  induction xs generalizing s₀ with
  | nil =>
    constructor
    · rintro rfl
      simp at ho
    · rintro ⟨s, x, hr, -⟩
      exact absurd hr.mem List.not_mem_nil
  | cons z zs ih =>
    constructor
    · intro h
      cases hz : step s₀ z with
      | next t =>
        rw [run_cons_next hz] at h
        obtain ⟨s, x, hr, hs⟩ := ih.mp h
        exact ⟨s, x, hr.tail hz, hs⟩
      | ret r => exact ⟨s₀, z, reaches_head, by rw [hz, ← h, run_cons_ret hz]⟩
      | halt e => exact ⟨s₀, z, reaches_head, by rw [hz, ← h, run_cons_halt hz]⟩
    · rintro ⟨s, x, hr, hs⟩
      rcases hr.cases with ⟨rfl, rfl⟩ | ⟨t, ht, hr⟩
      · cases o with
        | next => simp at ho
        | ret r => exact run_cons_ret hs
        | halt e => exact run_cons_halt hs
      · rw [run_cons_next ht]
        exact ih.mpr ⟨s, x, hr, hs⟩

end Scan

-- ---------------------------------------------------------------------------
-- Loops: a number of passes
-- ---------------------------------------------------------------------------

namespace Loop

variable {σ ρ η : Type}

def run (step : σ → Outcome σ ρ η) : Nat → σ → Outcome σ ρ η
  | 0, s => .next s
  | fuel + 1, s => match step s with
    | .next s' => run step fuel s'
    | .ret r => .ret r
    | .halt h => .halt h

variable {step : σ → Outcome σ ρ η} {s s' : σ} {o : Outcome σ ρ η}

@[simp] theorem run_zero : run step 0 s = .next s := rfl

theorem run_succ_next (h : step s = .next s') : run step (n + 1) s = run step n s' := by
  simp [run, h]

theorem run_succ_exit (h : step s = o) (ho : o.isNext = false) : run step (n + 1) s = o := by
  cases o with
  | next => simp at ho
  | ret r => simp [run, h]
  | halt e => simp [run, h]

theorem next_of_run_succ (h : run step (n + 1) s = .next s') :
    ∃ t, step s = .next t ∧ run step n t = .next s' := by
  cases hs : step s with
  | next t =>
    rw [run_succ_next hs] at h
    exact ⟨t, rfl, h⟩
  | ret r =>
    rw [run_succ_exit hs rfl] at h
    cases h
  | halt e =>
    rw [run_succ_exit hs rfl] at h
    cases h

theorem run_add (h : run step n s = .next s') : run step (n + m) s = run step m s' := by
  induction n generalizing s with
  | zero =>
    cases h
    rw [Nat.zero_add]
  | succ n ih =>
    obtain ⟨t, hs, ht⟩ := next_of_run_succ h
    rw [Nat.add_right_comm, run_succ_next hs, ih ht]

theorem run_mono (h : run step n s = o) (ho : o.isNext = false) (hnm : n ≤ m) :
    run step m s = o := by
  induction n generalizing s m with
  | zero =>
    subst h
    simp at ho
  | succ n ih =>
    obtain ⟨m, rfl⟩ : ∃ k, m = k + 1 := ⟨m - 1, by omega⟩
    cases hs : step s with
    | next t =>
      rw [run_succ_next hs] at h ⊢
      exact ih h (by omega)
    | ret r => rwa [run_succ_exit hs rfl] at h ⊢
    | halt e => rwa [run_succ_exit hs rfl] at h ⊢

def Leads (step : σ → Outcome σ ρ η) (s : σ) (o : Outcome σ ρ η) : Prop :=
  ∃ n, run step n s = o

theorem Leads.refl (s : σ) : Leads step s (.next s) := ⟨0, rfl⟩

theorem Leads.head (h : step s = .next s') (ho : Leads step s' o) : Leads step s o := by
  obtain ⟨n, hn⟩ := ho
  exact ⟨n + 1, by rw [run_succ_next h, hn]⟩

theorem Leads.one (h : step s = o) : Leads step s o := by
  refine ⟨1, ?_⟩
  subst h
  cases h : step s <;> simp [run, h]

theorem Leads.trans (h : Leads step s (.next s')) (ho : Leads step s' o) : Leads step s o := by
  obtain ⟨n, hn⟩ := h
  obtain ⟨m, hm⟩ := ho
  exact ⟨n + m, by rw [run_add hn, hm]⟩

theorem Leads.inv (Inv : σ → Prop) (h₀ : Inv s)
    (hstep : ∀ s s', Inv s → step s = .next s' → Inv s') (h : Leads step s (.next s')) :
    Inv s' := by
  obtain ⟨n, hn⟩ := h
  induction n generalizing s with
  | zero =>
    cases hn
    exact h₀
  | succ n ih =>
    obtain ⟨t, hs, ht⟩ := next_of_run_succ hn
    exact ih (hstep s t h₀ hs) ht

theorem Leads.last (h : Leads step s o) (ho : o.isNext = false) :
    ∃ s', Leads step s (.next s') ∧ step s' = o := by
  obtain ⟨n, hn⟩ := h
  induction n generalizing s with
  | zero =>
    subst hn
    simp at ho
  | succ n ih =>
    cases hs : step s with
    | next t =>
      rw [run_succ_next hs] at hn
      obtain ⟨s', hl, hs'⟩ := ih hn
      exact ⟨s', .head hs hl, hs'⟩
    | ret r =>
      rw [run_succ_exit hs rfl] at hn
      exact ⟨s, .refl s, hs.trans hn⟩
    | halt e =>
      rw [run_succ_exit hs rfl] at hn
      exact ⟨s, .refl s, hs.trans hn⟩

theorem Leads.rest (h : Leads step s (.next s')) (h' : Leads step s o) (ho : o.isNext = false) :
    Leads step s' o := by
  obtain ⟨n, hn⟩ := h
  obtain ⟨k, hk⟩ := h'
  exact ⟨k, by rw [← run_add hn, run_mono hk ho (Nat.le_add_left k n)]⟩

theorem Leads.unique {o' : Outcome σ ρ η} (h : Leads step s o) (h' : Leads step s o')
    (ho : o.isNext = false) (ho' : o'.isNext = false) : o = o' := by
  obtain ⟨n, hn⟩ := h
  obtain ⟨m, hm⟩ := h'
  have hn' := run_mono hn ho (Nat.le_max_left n m)
  have hm' := run_mono hm ho' (Nat.le_max_right n m)
  rw [← hn', hm']

end Loop

end BismarckPreloader
