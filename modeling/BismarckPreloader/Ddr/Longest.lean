import BismarckPreloader.Ddr.Windows
import Mathlib.Algebra.Ring.Int.Defs

/-!
# The longest read window at any resolution

The read search of `_memctl_find_proper_RW_dealy` with its resolution and its start taps as
parameters, in the words of the machine. The last tap is recognised by `r_delay + resolution >=
31`, which is also true of the last tap but one if that is followed by tap 31. There a sequence
is recorded too early, and the next one is taken to start with tap 31.
-/

namespace BismarckPreloader.Ddr

structure Grid where
  resolution : Nat
  wStart : Nat
  rStart : Nat
  resolution_pos : 0 < resolution
  resolution_lt : resolution < 2 ^ 32
  wStart_lt : wStart < resolution
  rStart_lt : rStart < resolution

def tapsFrom (resolution : Nat) : Nat → Nat → List Nat
  | 0, _ => []
  | n + 1, t =>
    if t < 32 then t :: tapsFrom resolution n ((t + resolution) % 2 ^ 32) else []

def Grid.readTaps (g : Grid) : List Nat := tapsFrom g.resolution 32 g.rStart

def Grid.writeTaps (g : Grid) : List Nat := tapsFrom g.resolution 32 g.wStart

namespace Search

def recordBy (resolution : Nat) (s : Search) (delay len : Nat) : Search :=
  if len > s.best.len then
    { s with best := ⟨s.seqStart, len⟩, seqStart := (delay + resolution) % 2 ^ 32 }
  else s

/-- `r_delay - r_seq_start - resolution + 1` for `back` the resolution, and for 0
`r_delay - r_seq_start + 1`. -/
def lenAt (s : Search) (delay back : Nat) : Nat :=
  (((delay : Int) - s.seqStart - back + 1) % 2 ^ 32).toNat

def tapBy (resolution : Nat) (s : Search) (delay : Nat) (correct : Bool) : Search :=
  if s.searching then
    let s := if correct then { s with seqStart := delay, searching := false } else s
    if (delay + resolution) % 2 ^ 32 ≥ 31 then s.recordBy resolution delay 1 else s
  else if correct = false then
    { s.recordBy resolution delay (s.lenAt delay resolution) with searching := true }
  else if (delay + resolution) % 2 ^ 32 ≥ 31 then s.recordBy resolution delay (s.lenAt delay 0)
  else s

end Search

def readRow (g : Grid) (ok : Nat → Nat → Bool) (s : Search) (w : Nat) : Search :=
  g.readTaps.foldl (fun s r => s.tapBy g.resolution r (ok w r)) s.restart

def readSearchBy (g : Grid) (ok : Nat → Nat → Bool) : Search :=
  g.writeTaps.foldl (readRow g ok) .init

/-- `max_r_seq_start` and `max_r_len` of a bit, if it is looked at. -/
def reported (g : Grid) (mode16 : Bool) (ok : Table) (bit : Nat) : Option Window :=
  if active mode16 bit then some (readSearchBy g (ok bit)).best else none

/-- At a write tap, `k` read taps from `start` on pass. -/
structure Run (g : Grid) (ok : Nat → Nat → Bool) (w start k : Nat) : Prop where
  write_lt : w < 32
  write : w % g.resolution = g.wStart
  read : start % g.resolution = g.rStart
  pos : 0 < k
  last_lt : start + (k - 1) * g.resolution < 32
  passes : ∀ i < k, ok w (start + i * g.resolution) = true

structure Longest (g : Grid) (ok : Nat → Nat → Bool) (start k : Nat) : Prop where
  run : ∃ w, Run g ok w start k
  greatest : ∀ w start' k', Run g ok w start' k' → k' ≤ k

def LongestReported (g : Grid) : Prop :=
  ∀ mode16 ok bit, bit < 32 → active mode16 bit = true →
    (∃ w start, Run g (ok bit) w start 2) →
      ∃ v k, reported g mode16 ok bit = some v ∧ Longest g (ok bit) v.start k ∧
        v.len = g.resolution * (k - 1) + 1

-- ---------------------------------------------------------------------------
-- Taps
-- ---------------------------------------------------------------------------

theorem tapsFrom_of_lt (h : t < 32) :
    tapsFrom res (n + 1) t = t :: tapsFrom res n ((t + res) % 2 ^ 32) :=
  if_pos h

theorem tapsFrom_of_le (h : 32 ≤ t) : tapsFrom res n t = [] := by
  cases n with
  | zero => rfl
  | succ n => exact if_neg (Nat.not_lt.mpr h)

theorem tapsFrom_up (hr : res + 31 < 2 ^ 32) (hpos : 0 < res)
    (hn : 32 ≤ t + n) : tapsFrom res (n + 1) t = tapsFrom res n t := by
  induction n generalizing t with
  | zero => exact (tapsFrom_of_le hn).trans (tapsFrom_of_le hn).symm
  | succ n ih =>
    rcases Nat.lt_or_ge t 32 with ht | ht
    · rw [tapsFrom_of_lt ht, tapsFrom_of_lt ht, ih (by omega)]
    · rw [tapsFrom_of_le ht, tapsFrom_of_le ht]

theorem tapsFrom_down (hr : 2 ^ 32 ≤ res + 31) (hlt : res < 2 ^ 32)
    (hn : 32 ≤ t ∨ t < n) : tapsFrom res (n + 1) t = tapsFrom res n t := by
  induction n generalizing t with
  | zero =>
    have ht := hn.resolve_right (Nat.not_lt_zero t)
    rw [tapsFrom_of_le ht, tapsFrom_of_le ht]
  | succ n ih =>
    rcases Nat.lt_or_ge t 32 with ht | ht
    · rw [tapsFrom_of_lt ht, tapsFrom_of_lt ht, ih (by omega)]
    · rw [tapsFrom_of_le ht, tapsFrom_of_le ht]

theorem tapsFrom_ends (g : Grid) (ht : t < 2 ^ 32) (hn : 32 ≤ n) :
    tapsFrom g.resolution (n + 1) t = tapsFrom g.resolution n t := by
  have hlt := g.resolution_lt
  by_cases hr : g.resolution + 31 < 2 ^ 32
  · exact tapsFrom_up hr g.resolution_pos (by omega)
  · exact tapsFrom_down (by omega) hlt (by omega)

theorem tapsFrom_foldl {σ : Type} (f : σ → Nat → σ) (P : Nat → σ → Prop)
    (hpos : 0 < res) (hr : res ≤ 31)
    (hstep : ∀ t s, t < 32 → t % res = a → P t s → P (t + res) (f s t))
    (n t : Nat) (s : σ) (hn : 32 ≤ t + n) (ht : t % res = a) (h : P t s) :
    ∃ t', 32 ≤ t' ∧ P t' ((tapsFrom res n t).foldl f s) := by
  induction n generalizing t s with
  | zero => exact ⟨t, hn, h⟩
  | succ n ih =>
    rcases Nat.lt_or_ge t 32 with hlt | hge
    · have hmod : (t + res) % 2 ^ 32 = t + res := Nat.mod_eq_of_lt (by omega)
      rw [tapsFrom_of_lt hlt, hmod, List.foldl_cons]
      exact ih _ _ (by omega) ((Nat.add_mod_right ..).trans ht) (hstep t s hlt ht h)
    · rw [tapsFrom_of_le hge]
      exact ⟨t, hge, h⟩

theorem next_tap_le {m s t : Nat} (h : s % m = t % m) (hlt : s < t) : s + m ≤ t := by
  have hdvd : m ∣ t - s := Nat.dvd_of_mod_eq_zero (Nat.sub_mod_eq_zero_of_mod_eq h.symm)
  have hle := Nat.le_of_dvd (Nat.sub_pos_of_lt hlt) hdvd
  omega

structure Stretch (g : Grid) (ok : Nat → Nat → Bool) (w first last : Nat) : Prop where
  le : first ≤ last
  last_lt : last < 32
  first_mod : first % g.resolution = g.rStart
  last_mod : last % g.resolution = g.rStart
  passes : ∀ t, first ≤ t → t ≤ last → t % g.resolution = g.rStart → ok w t = true

theorem Run.stretch (h : Run g ok w start k) :
    Stretch g ok w start (start + (k - 1) * g.resolution) where
  le := Nat.le_add_right ..
  last_lt := h.last_lt
  first_mod := h.read
  last_mod := (Nat.add_mul_mod_self_right ..).trans h.read
  passes := by
    intro t hfirst hlast ht
    have hdvd : g.resolution ∣ t - start :=
      Nat.dvd_of_mod_eq_zero (Nat.sub_mod_eq_zero_of_mod_eq (ht.trans h.read.symm))
    obtain ⟨i, hi⟩ := hdvd
    have hle : g.resolution * i ≤ g.resolution * (k - 1) := by
      rw [Nat.mul_comm _ (k - 1)]
      omega
    have hik : i ≤ k - 1 := Nat.le_of_mul_le_mul_left hle g.resolution_pos
    have hpos := h.pos
    have hpass := h.passes i (by omega)
    rw [Nat.mul_comm] at hi
    rwa [← hi, Nat.add_sub_cancel' hfirst] at hpass

theorem Stretch.run (h : Stretch g ok w first last) (hlt : w < 32)
    (hw : w % g.resolution = g.wStart) :
    ∃ k, Run g ok w first k ∧ last - first = g.resolution * (k - 1) := by
  have hdvd : g.resolution ∣ last - first :=
    Nat.dvd_of_mod_eq_zero (Nat.sub_mod_eq_zero_of_mod_eq (h.last_mod.trans h.first_mod.symm))
  obtain ⟨k, hk⟩ := hdvd
  have hle := h.le
  have hlast : last = first + k * g.resolution := by
    rw [Nat.mul_comm] at hk
    omega
  refine ⟨k + 1, ⟨hlt, hw, h.first_mod, Nat.succ_pos k, ?_, ?_⟩, hk⟩
  · rw [Nat.add_sub_cancel, ← hlast]
    exact h.last_lt
  · intro i hi
    apply h.passes
    · exact Nat.le_add_right ..
    · have hik := Nat.mul_le_mul_right g.resolution (Nat.le_of_lt_succ hi)
      omega
    · exact (Nat.add_mul_mod_self_right ..).trans h.first_mod

namespace Search

theorem le_recordBy (resolution : Nat) (s : Search) (delay len : Nat) :
    s.best.len ≤ (s.recordBy resolution delay len).best.len ∧
      len ≤ (s.recordBy resolution delay len).best.len := by
  unfold recordBy
  split
  · rename_i h
    exact ⟨Nat.le_of_lt h, Nat.le_refl _⟩
  · rename_i h
    exact ⟨Nat.le_refl _, Nat.le_of_not_lt h⟩

theorem best_recordBy (resolution : Nat) (s : Search) (delay len : Nat) :
    (s.recordBy resolution delay len).best = s.best ∨
      (s.recordBy resolution delay len).best = ⟨s.seqStart, len⟩ := by
  unfold recordBy
  split
  · exact .inr rfl
  · exact .inl rfl

theorem lenAt_eq {s : Search} (h : s.seqStart + back ≤ delay) (hlt : delay < 32) :
    s.lenAt delay back = delay - back - s.seqStart + 1 := by
  unfold lenAt
  omega

theorem le_tapBy (resolution : Nat) (s : Search) (delay : Nat) (correct : Bool) :
    s.best.len ≤ (s.tapBy resolution delay correct).best.len := by
  unfold tapBy
  split
  · cases correct
    · dsimp only
      split
      · exact (le_recordBy ..).1
      · exact Nat.le_refl _
    · dsimp only
      split
      · exact (le_recordBy resolution { s with seqStart := delay, searching := false } _ _).1
      · exact Nat.le_refl _
  · split
    · exact (le_recordBy ..).1
    · split
      · exact (le_recordBy ..).1
      · exact Nat.le_refl _

end Search

-- ---------------------------------------------------------------------------
-- One write tap
-- ---------------------------------------------------------------------------

def Sound (g : Grid) (ok : Nat → Nat → Bool) (v : Window) : Prop :=
  v.len ≤ 1 ∨ ∃ w last, w < 32 ∧ w % g.resolution = g.wStart ∧ Stretch g ok w v.start last ∧
    v.len = last - v.start + 1

def Search.edge (s : Search) (t : Nat) : Nat := if s.searching then t else s.seqStart

/-- The search before tap `t`: what begins before the edge ends before it and is recorded,
from the edge on all taps pass. -/
structure Sweep (g : Grid) (ok : Nat → Nat → Bool) (w t : Nat) (s : Search) : Prop where
  sound : Sound g ok s.best
  closed : ∀ first last, Stretch g ok w first last → first < s.edge t →
    last < s.edge t ∧ last - first + 1 ≤ s.best.len
  running : s.searching = false → s.seqStart < t ∧ s.seqStart % g.resolution = g.rStart ∧
    ∀ r, s.seqStart ≤ r → r < t → r % g.resolution = g.rStart → ok w r = true

structure Swept (g : Grid) (ok : Nat → Nat → Bool) (w : Nat) (v : Window) : Prop where
  sound : Sound g ok v
  longest : ∀ first last, Stretch g ok w first last → last - first + 1 ≤ v.len

theorem Sound.recordBy {s : Search} (h : Sound g ok s.best) (hv : Sound g ok ⟨s.seqStart, len⟩) :
    Sound g ok (s.recordBy res delay len).best := by
  rcases s.best_recordBy res delay len with he | he
  · rwa [he]
  · rwa [he]

section

variable {g : Grid} {ok : Nat → Nat → Bool} {w t : Nat} {s : Search}

theorem Sweep.swept (h : Sweep g ok w t s) (hs : s.searching = true) (ht : 32 ≤ t) :
    Swept g ok w s.best := by
  refine ⟨h.sound, fun first last hst => (h.closed first last hst ?_).2⟩
  have hle := hst.le
  have hlt := hst.last_lt
  rw [Search.edge, if_pos hs]
  omega

theorem Swept.recordBy_one (h : Swept g ok w s.best) :
    Swept g ok w (s.recordBy res delay 1).best :=
  ⟨h.sound.recordBy (.inl (Nat.le_refl 1)), fun first last hst =>
    Nat.le_trans (h.longest first last hst) (s.le_recordBy ..).1⟩

theorem Stretch.apart (h : Stretch g ok w first last) (ht : t % g.resolution = g.rStart)
    (hok : ok w t = false) : last < t ∨ t < first := by
  by_contra hcon
  have hpass := h.passes t (by omega) (by omega) ht
  rw [hok] at hpass
  cases hpass

theorem Stretch.last_le (h : Stretch g ok w first last) (ht : t % g.resolution = g.rStart)
    (hlt : last < t + g.resolution) : last ≤ t := by
  by_contra hcon
  have hnext := next_tap_le (ht.trans h.last_mod.symm) (Nat.lt_of_not_le hcon)
  omega

theorem Sweep.finish (h : Sweep g ok w (t + g.resolution) s) (res delay : Nat)
    (hs : s.searching = false) (hw : w < 32) (hwm : w % g.resolution = g.wStart)
    (ht : t % g.resolution = g.rStart)
    (hle : s.seqStart ≤ t) (hlt : t < 32) (hend : 32 ≤ t + g.resolution) :
    Swept g ok w (s.recordBy res delay (t - s.seqStart + 1)).best := by
  obtain ⟨-, hmod, hpass⟩ := h.running hs
  have hpos := g.resolution_pos
  constructor
  · refine h.sound.recordBy (.inr ⟨w, t, hw, hwm, ⟨hle, hlt, hmod, ht, ?_⟩, rfl⟩)
    exact fun r hr hrt => hpass r hr (by omega)
  · intro first last hst
    have hrec := s.le_recordBy res delay (t - s.seqStart + 1)
    have hlast := hst.last_le ht (Nat.lt_of_lt_of_le hst.last_lt hend)
    by_cases hfirst : first < s.seqStart
    · have hclosed := (h.closed first last hst (by rwa [Search.edge, hs])).2
      omega
    · omega

theorem Sweep.begin (h : Sweep g ok w t s) (hs : s.searching = true)
    (ht : t % g.resolution = g.rStart) (hok : ok w t = true) :
    Sweep g ok w (t + g.resolution) { s with seqStart := t, searching := false } := by
  refine ⟨h.sound, ?_, fun _ => ⟨Nat.lt_add_of_pos_right g.resolution_pos, ht, ?_⟩⟩
  · have hclosed := h.closed
    rw [Search.edge, if_pos hs] at hclosed
    exact hclosed
  · intro r hr hlt hrm
    rcases Nat.eq_or_lt_of_le hr with rfl | hr
    · exact hok
    · have hnext := next_tap_le (ht.trans hrm.symm) hr
      omega

theorem Sweep.skip (h : Sweep g ok w t s) (hs : s.searching = true)
    (ht : t % g.resolution = g.rStart) (hok : ok w t = false) :
    Sweep g ok w (t + g.resolution) s := by
  refine ⟨h.sound, ?_, fun hs' => absurd hs (by simp [hs'])⟩
  intro first last hst hlt
  have hclosed := h.closed first last hst
  rw [Search.edge, if_pos hs] at hclosed hlt ⊢
  have hle := hst.le
  rcases hst.apart ht hok with hl | hf
  · have hc := hclosed (by omega)
    omega
  · have hnext := next_tap_le (ht.trans hst.first_mod.symm) hf
    omega

theorem Sweep.goOn (h : Sweep g ok w t s) (hs : s.searching = false)
    (ht : t % g.resolution = g.rStart) (hok : ok w t = true) :
    Sweep g ok w (t + g.resolution) s := by
  obtain ⟨hlt, hmod, hpass⟩ := h.running hs
  refine ⟨h.sound, ?_, fun _ => ⟨by omega, hmod, ?_⟩⟩
  · have hclosed := h.closed
    rw [Search.edge, hs] at hclosed ⊢
    exact hclosed
  · intro r hr hrt hrm
    rcases Nat.lt_trichotomy r t with hl | rfl | hl
    · exact hpass r hr hl hrm
    · exact hok
    · have hnext := next_tap_le (ht.trans hrm.symm) hl
      omega

theorem Sweep.stop (h : Sweep g ok w t s) (hs : s.searching = false)
    (hw : w < 32) (hwm : w % g.resolution = g.wStart) (ht : t % g.resolution = g.rStart)
    (hlt : t < 32) (hok : ok w t = false) :
    Sweep g ok w (t + g.resolution)
      { s.recordBy g.resolution t (s.lenAt t g.resolution) with searching := true } := by
  obtain ⟨hst, hmod, hpass⟩ := h.running hs
  have hle := next_tap_le (hmod.trans ht.symm) hst
  have hpos := g.resolution_pos
  have hlast : (t - g.resolution) % g.resolution = g.rStart := by
    rw [← Nat.add_mod_right, Nat.sub_add_cancel (by omega)]
    exact ht
  rw [Search.lenAt_eq hle hlt]
  have hrec := s.le_recordBy g.resolution t (t - g.resolution - s.seqStart + 1)
  refine ⟨h.sound.recordBy (.inr ⟨w, t - g.resolution, hw, hwm,
    ⟨by dsimp only; omega, by omega, hmod, hlast, ?_⟩, rfl⟩), ?_, fun hs' => nomatch hs'⟩
  · exact fun r hr hrt => hpass r hr (by omega)
  · intro first last hstr hfirst
    have hfl := hstr.le
    have hf : first ≤ t := by
      by_contra hcon
      have hnext := next_tap_le (ht.trans hstr.first_mod.symm) (Nat.lt_of_not_le hcon)
      exact Nat.not_lt.mpr hnext hfirst
    have hl : last < t := (hstr.apart ht hok).resolve_right (by omega)
    have hl' := next_tap_le (hstr.last_mod.trans ht.symm) hl
    refine ⟨Nat.lt_add_right _ hl, ?_⟩
    dsimp only
    by_cases hedge : first < s.seqStart
    · have hclosed := (h.closed first last hstr (by rwa [Search.edge, hs])).2
      omega
    · omega

theorem Sweep.tap (h : Sweep g ok w t s) (hw : w < 32) (hwm : w % g.resolution = g.wStart)
    (ht : t % g.resolution = g.rStart) (hlt : t < 31) (hr : g.resolution ≤ 31)
    (hend : 31 ≤ t + g.resolution → 32 ≤ t + g.resolution) :
    (t + g.resolution < 31 →
      Sweep g ok w (t + g.resolution) (s.tapBy g.resolution t (ok w t))) ∧
    (31 ≤ t + g.resolution → Swept g ok w (s.tapBy g.resolution t (ok w t)).best) := by
  have hmod : (t + g.resolution) % 2 ^ 32 = t + g.resolution := Nat.mod_eq_of_lt (by omega)
  unfold Search.tapBy
  rw [hmod]
  cases hs : s.searching with
  | true =>
    simp only [↓reduceIte]
    cases hok : ok w t with
    | true =>
      have hnext := h.begin hs ht hok
      refine ⟨fun hle => ?_, fun hge => ?_⟩
      · simpa [Nat.not_le.mpr hle] using hnext
      · have hfin := hnext.finish g.resolution t rfl hw hwm ht (Nat.le_refl t) (by omega)
          (hend hge)
        simpa [hge] using hfin
    | false =>
      have hnext := h.skip hs ht hok
      refine ⟨fun hle => ?_, fun hge => ?_⟩
      · simpa [Nat.not_le.mpr hle] using hnext
      · simpa [hge] using (hnext.swept hs (hend hge)).recordBy_one
  | false =>
    cases hok : ok w t with
    | true =>
      have hnext := h.goOn hs ht hok
      have hst := Nat.le_of_lt (h.running hs).1
      refine ⟨fun hle => ?_, fun hge => ?_⟩
      · simpa [Nat.not_le.mpr hle] using hnext
      · have hlen : s.lenAt t 0 = t - s.seqStart + 1 := Search.lenAt_eq hst (by omega)
        have hfin := hnext.finish g.resolution t hs hw hwm ht hst (by omega) (hend hge)
        simpa [hge, hlen] using hfin
    | false =>
      have hnext := h.stop hs hw hwm ht (by omega) hok
      exact ⟨fun _ => hnext, fun hge => hnext.swept rfl (hend hge)⟩

theorem le_readRow (g : Grid) (ok : Nat → Nat → Bool) (s : Search) (w : Nat) :
    s.best.len ≤ (readRow g ok s w).best.len := by
  unfold readRow
  have hfold : ∀ taps : List Nat, ∀ s' : Search, s'.best.len ≤
      (taps.foldl (fun s r => s.tapBy g.resolution r (ok w r)) s').best.len := by
    intro taps
    induction taps with
    | nil => exact fun s' => Nat.le_refl _
    | cons r taps ih => exact fun s' => Nat.le_trans (s'.le_tapBy ..) (ih _)
  exact hfold g.readTaps s.restart

theorem sweep_restart (h : Sound g ok s.best) : Sweep g ok w g.rStart s.restart where
  sound := h
  closed := by
    intro first last hst hlt
    have hle := Nat.mod_le first g.resolution
    rw [hst.first_mod] at hle
    exact absurd hlt (Nat.not_lt.mpr hle)
  running := fun hs => nomatch hs

theorem readRow_swept (hr : g.resolution ≤ 31) (h31 : 31 % g.resolution ≠ g.rStart)
    (hw : w < 32) (hwm : w % g.resolution = g.wStart) (h : Sound g ok s.best) :
    Swept g ok w (readRow g ok s w).best := by
  have hstart := g.rStart_lt
  obtain ⟨t, hge, -, hswept⟩ := tapsFrom_foldl
    (fun s r => s.tapBy g.resolution r (ok w r))
    (fun t s => (t < 31 → Sweep g ok w t s) ∧ (31 ≤ t → Swept g ok w s.best))
    g.resolution_pos hr
    (fun t s hlt ht hP => by
      have hne : t ≠ 31 := fun he => h31 (he ▸ ht)
      have hne' : t + g.resolution ≠ 31 := by
        intro he
        rw [← he, Nat.add_mod_right] at h31
        exact h31 ht
      exact (hP.1 (by omega)).tap hw hwm ht (by omega) hr (by omega))
    32 g.rStart s.restart (by omega) (Nat.mod_eq_of_lt hstart)
    ⟨fun _ => sweep_restart h, fun hge => absurd hge (by omega)⟩
  exact hswept (by omega)

theorem readSearchBy_swept (ok : Nat → Nat → Bool) (hr : g.resolution ≤ 31)
    (h31 : 31 % g.resolution ≠ g.rStart) :
    Sound g ok (readSearchBy g ok).best ∧
      ∀ w first last, w < 32 → w % g.resolution = g.wStart → Stretch g ok w first last →
        last - first + 1 ≤ (readSearchBy g ok).best.len := by
  have hstart := g.wStart_lt
  obtain ⟨t, hge, hsound, hall⟩ := tapsFrom_foldl (readRow g ok)
    (fun t s => Sound g ok s.best ∧ ∀ w first last, w < t → w % g.resolution = g.wStart →
      Stretch g ok w first last → last - first + 1 ≤ s.best.len)
    g.resolution_pos hr
    (fun t s hlt ht hP => by
      have hswept := readRow_swept hr h31 hlt ht hP.1
      refine ⟨hswept.sound, fun w first last hw hwm hst => ?_⟩
      rcases Nat.lt_trichotomy w t with hl | rfl | hl
      · exact Nat.le_trans (hP.2 w first last hl hwm hst) (le_readRow g ok s t)
      · exact hswept.longest first last hst
      · have hnext := next_tap_le (ht.trans hwm.symm) hl
        omega)
    32 g.wStart .init (by omega) (Nat.mod_eq_of_lt hstart)
    ⟨.inl (Nat.zero_le 1), fun w first last hw hwm => by
      have hle := Nat.mod_le w g.resolution
      omega⟩
  exact ⟨hsound, fun w first last hw => hall w first last (by omega)⟩

theorem readSearchBy_longest (h31 : 31 % g.resolution ≠ g.rStart)
    (h2 : Run g ok w start 2) :
    ∃ k, Longest g ok (readSearchBy g ok).best.start k ∧
      (readSearchBy g ok).best.len = g.resolution * (k - 1) + 1 := by
  have hlast := h2.last_lt
  have hpos := g.resolution_pos
  obtain ⟨hsound, hall⟩ := readSearchBy_swept ok (by omega) h31
  have hle : ∀ w start' k, Run g ok w start' k →
      g.resolution * (k - 1) + 1 ≤ (readSearchBy g ok).best.len := by
    intro w start' k hrun
    have hk := hall w _ _ hrun.write_lt hrun.write hrun.stretch
    rwa [Nat.add_sub_cancel_left, Nat.mul_comm] at hk
  have htwo := hle w start 2 h2
  rcases hsound with hone | ⟨w', last, hw, hwm, hst, hlen⟩
  · omega
  · obtain ⟨k, hrun, hk⟩ := hst.run hw hwm
    rw [hk] at hlen
    refine ⟨k, ⟨⟨w', hrun⟩, fun w'' start' k' hrun' => ?_⟩, hlen⟩
    have hk' := hle w'' start' k' hrun'
    have hmul : g.resolution * (k' - 1) ≤ g.resolution * (k - 1) := by omega
    have hkk := Nat.le_of_mul_le_mul_left hmul hpos
    have hkpos := hrun.pos
    omega

end

-- ---------------------------------------------------------------------------
-- Where tap 31 is scanned
-- ---------------------------------------------------------------------------

def firstRow (g : Grid) (w _ : Nat) : Bool := w == g.wStart

section

variable {g : Grid}

theorem rStart_add_le (hr : g.resolution ≤ 31) (h31 : 31 % g.resolution = g.rStart) :
    g.rStart + g.resolution ≤ 31 :=
  next_tap_le ((Nat.mod_eq_of_lt g.rStart_lt).trans h31.symm)
    (Nat.lt_of_lt_of_le g.rStart_lt hr)

def Grid.cut (g : Grid) : Nat := 32 - g.resolution - g.rStart

structure Cutting (g : Grid) (t : Nat) (s : Search) : Prop where
  first : t = g.rStart → s.searching = true
  running : g.rStart < t → s.searching = false
  before : t < 31 → s.best.len = 0 ∧ (g.rStart < t → s.seqStart = g.rStart)
  at31 : t = 31 → s.seqStart = 31
  after : 31 ≤ t → s.best.len = g.cut

theorem Cutting.begun (h : Cutting g t s) (hstart : g.rStart ≤ t) (hlt : t < 31)
    (hr : g.resolution ≤ 31) :
    ∃ s' : Search, s'.searching = false ∧ s'.seqStart = g.rStart ∧ s'.best.len = 0 ∧
      s.tapBy g.resolution t true = if t + g.resolution ≥ 31 then
        s'.recordBy g.resolution t (t - g.rStart + 1) else s' := by
  have hmod : (t + g.resolution) % 2 ^ 32 = t + g.resolution := Nat.mod_eq_of_lt (by omega)
  obtain ⟨hlen, hseq⟩ := h.before hlt
  rcases Nat.eq_or_lt_of_le hstart with heq | hgt
  · refine ⟨{ s with seqStart := t, searching := false }, rfl, heq.symm, hlen, ?_⟩
    rw [Search.tapBy, hmod, if_pos (h.first heq.symm), heq, Nat.sub_self]
    rfl
  · have hs := h.running hgt
    have hlen' : s.lenAt t 0 = t - g.rStart + 1 := by
      rw [Search.lenAt_eq (by rw [hseq hgt]; omega) (by omega), hseq hgt]
      rfl
    refine ⟨s, hs, hseq hgt, hlen, ?_⟩
    rw [Search.tapBy, hmod, hlen']
    simp [hs]

theorem Cutting.tap (h : Cutting g t s) (ht : t % g.resolution = g.rStart) (hlt : t < 32)
    (hr : g.resolution ≤ 31) (h31 : 31 % g.resolution = g.rStart) :
    Cutting g (t + g.resolution) (s.tapBy g.resolution t true) := by
  have hpos := g.resolution_pos
  have hstart : g.rStart ≤ t := ht ▸ Nat.mod_le ..
  have hfirst := rStart_add_le hr h31
  have hcut : g.cut = 32 - g.resolution - g.rStart := rfl
  rcases Nat.lt_or_ge t 31 with hlt' | hge
  · have hnext := next_tap_le (ht.trans h31.symm) hlt'
    obtain ⟨s', hs, hseq, hlen, heq⟩ := h.begun hstart hlt' hr
    rw [heq]
    split
    · have hrec : s'.recordBy g.resolution t (t - g.rStart + 1) =
          { s' with best := ⟨s'.seqStart, g.cut⟩, seqStart := 31 } := by
        have hlen' : t - g.rStart + 1 = g.cut := by omega
        have hend : (t + g.resolution) % 2 ^ 32 = 31 := by omega
        rw [Search.recordBy, if_pos (by omega), hlen', hend]
      rw [hrec]
      exact ⟨by omega, fun _ => hs, by omega, fun _ => rfl, fun _ => rfl⟩
    · exact ⟨by omega, fun _ => hs, fun _ => ⟨hlen, fun _ => hseq⟩, by omega, by omega⟩
  · have ht31 : t = 31 := by omega
    subst ht31
    have hs := h.running (by omega)
    have hseq := h.at31 rfl
    have hbest := h.after (Nat.le_refl 31)
    -- one tap is not longer than what is cut off
    have hsame : s.tapBy g.resolution 31 true = s := by
      have hlen : s.lenAt 31 0 = 1 := by
        rw [Search.lenAt_eq (by rw [hseq]) (by omega), hseq]
      have hone : ¬ 1 > s.best.len := by omega
      simp [Search.tapBy, hs, hlen, Search.recordBy, hone]
    rw [hsame]
    exact ⟨by omega, fun _ => hs, by omega, by omega, fun _ => hbest⟩

theorem readRow_cut (hr : g.resolution ≤ 31) (h31 : 31 % g.resolution = g.rStart) :
    (readRow g (firstRow g) .init g.wStart).best.len = g.cut := by
  have hstart := g.rStart_lt
  obtain ⟨t, hge, hcutting⟩ := tapsFrom_foldl
    (fun s r => s.tapBy g.resolution r (firstRow g g.wStart r)) (Cutting g)
    g.resolution_pos hr
    (fun t s hlt ht h => by
      have hpass : firstRow g g.wStart t = true := beq_self_eq_true _
      rw [hpass]
      exact h.tap ht hlt hr h31)
    32 g.rStart Search.init.restart (by omega) (Nat.mod_eq_of_lt hstart)
    ⟨fun _ => rfl, by omega, fun _ => ⟨rfl, by omega⟩, by omega, by omega⟩
  exact hcutting.after (by omega)

theorem readRow_failing (hr : g.resolution ≤ 31) (hw : w ≠ g.wStart) (hs : 0 < s.best.len) :
    (readRow g (firstRow g) s w).best = s.best := by
  have hstart := g.rStart_lt
  obtain ⟨t, -, -, hbest⟩ := tapsFrom_foldl
    (fun s r => s.tapBy g.resolution r (firstRow g w r))
    (fun _ s' => s'.searching = true ∧ s'.best = s.best)
    g.resolution_pos hr
    (fun t s' hlt ht h => by
      have hfail : firstRow g w t = false := beq_eq_false_iff_ne.mpr hw
      have hone : ¬ 1 > s'.best.len := by
        rw [h.2]
        omega
      have hrec : s'.recordBy g.resolution t 1 = s' := if_neg hone
      rw [hfail]
      simp [Search.tapBy, h.1, hrec, h.2])
    32 g.rStart s.restart (by omega) (Nat.mod_eq_of_lt hstart) ⟨rfl, rfl⟩
  exact hbest

theorem readSearchBy_cut (hr : g.resolution ≤ 31) (h31 : 31 % g.resolution = g.rStart) :
    (readSearchBy g (firstRow g)).best.len = g.cut := by
  have hstart := g.wStart_lt
  have hpos := g.resolution_pos
  have hfirst := rStart_add_le hr h31
  have hcut : g.cut = 32 - g.resolution - g.rStart := rfl
  obtain ⟨t, hge, -, hbest⟩ := tapsFrom_foldl (readRow g (firstRow g))
    (fun t s => (t = g.wStart → s = .init) ∧ (g.wStart < t → s.best.len = g.cut))
    g.resolution_pos hr
    (fun t s hlt ht h => by
      refine ⟨fun he => by have := Nat.mod_le t g.resolution; omega, fun _ => ?_⟩
      have hle : g.wStart ≤ t := ht ▸ Nat.mod_le ..
      rcases Nat.eq_or_lt_of_le hle with rfl | hgt
      · rw [h.1 rfl]
        exact readRow_cut hr h31
      · have hlen := h.2 hgt
        rw [readRow_failing hr (by omega) (by omega)]
        exact hlen)
    32 g.wStart .init (by omega) (Nat.mod_eq_of_lt hstart) ⟨fun _ => rfl, by omega⟩
  exact hbest (by omega)

theorem firstRow_run (hr : g.resolution ≤ 31) (hk : 0 < k)
    (hlt : g.rStart + (k - 1) * g.resolution < 32) :
    Run g (firstRow g) g.wStart g.rStart k where
  write_lt := Nat.lt_of_lt_of_le g.wStart_lt (Nat.le_trans hr (by omega))
  write := Nat.mod_eq_of_lt g.wStart_lt
  read := Nat.mod_eq_of_lt g.rStart_lt
  pos := hk
  last_lt := hlt
  passes := fun _ _ => beq_self_eq_true _

theorem not_longestReported (hr : g.resolution ≤ 31) (h31 : 31 % g.resolution = g.rStart) :
    ¬ LongestReported g := by
  intro h
  have hfirst := rStart_add_le hr h31
  have htwo : Run g (firstRow g) g.wStart g.rStart 2 :=
    firstRow_run hr (by omega) (by omega)
  obtain ⟨v, k, hv, hlongest, hlen⟩ := h true (fun _ => firstRow g) 0 (by omega) rfl ⟨_, _, htwo⟩
  cases hv
  rw [readSearchBy_cut hr h31] at hlen
  -- the run to tap 31 is one tap longer than what is reported
  have hall := hlongest.greatest g.wStart g.rStart (31 / g.resolution + 1)
    (firstRow_run hr (Nat.succ_pos _) ?_)
  · have hdiv := Nat.div_add_mod 31 g.resolution
    have hmul := Nat.mul_le_mul_left g.resolution (Nat.le_sub_one_of_lt hall)
    have hcut : g.cut = 32 - g.resolution - g.rStart := rfl
    have hpos := g.resolution_pos
    omega
  · have hdiv := Nat.div_add_mod 31 g.resolution
    rw [Nat.add_sub_cancel, Nat.mul_comm]
    omega

end

/-- A longest run is reported, whatever the table, unless tap 31 comes after another tap. -/
theorem longest_reported_iff (g : Grid) :
    LongestReported g ↔ ¬ (g.resolution ≤ 31 ∧ 31 % g.resolution = g.rStart) := by
  constructor
  · exact fun h hc => not_longestReported hc.1 hc.2 h
  · intro hc mode16 ok bit _ hactive ⟨w, start, h2⟩
    have hr : g.resolution ≤ 31 := by
      have hlast := h2.last_lt
      omega
    obtain ⟨k, hlongest, hlen⟩ := readSearchBy_longest (fun h31 => hc ⟨hr, h31⟩) h2
    exact ⟨_, k, if_pos hactive, hlongest, hlen⟩

-- ---------------------------------------------------------------------------
-- The constants of the build
-- ---------------------------------------------------------------------------

theorem resolution_pos : 0 < resolution := by decide

theorem resolution_lt : resolution < 2 ^ 32 := by decide

/-- `MEMCTL_CALI_FULL_SCAN_RESOLUTION` and the start taps. -/
def fullScan : Grid where
  resolution := resolution
  wStart := 0
  rStart := 0
  resolution_pos := resolution_pos
  resolution_lt := resolution_lt
  wStart_lt := resolution_pos
  rStart_lt := resolution_pos

namespace Search

theorem recordBy_resolution (s : Search) (len : Nat) (ht : t < 32) :
    s.recordBy resolution t len = s.record t len := by
  have hmod : (t + resolution) % 2 ^ 32 = t + resolution := Nat.mod_eq_of_lt (by
    unfold resolution
    omega)
  rw [recordBy, record, hmod]

theorem tapBy_resolution {s : Search} (c : Bool) (ht : t < 32)
    (h : s.searching = false → s.seqStart + resolution ≤ t) :
    s.tapBy resolution t c = s.tap t c := by
  have hmod : (t + resolution) % 2 ^ 32 = t + resolution := Nat.mod_eq_of_lt (by
    unfold resolution
    omega)
  unfold tapBy tap
  rw [hmod]
  simp only [recordBy_resolution _ _ ht]
  split
  · rfl
  · rename_i hs
    have hle := h (by simpa using hs)
    have hback : s.lenAt t resolution = t - s.seqStart - resolution + 1 := by
      rw [lenAt_eq hle ht]
      omega
    have hhere : s.lenAt t 0 = t - s.seqStart + 1 := lenAt_eq (by omega) ht
    rw [hback, hhere]

theorem tap_seqStart {s : Search} (c : Bool) (ht : t + resolution < 31)
    (h : s.searching = false → s.seqStart + resolution ≤ t) :
    (s.tap t c).searching = false → (s.tap t c).seqStart + resolution ≤ t + resolution := by
  unfold tap
  have hnot : ¬ t + resolution ≥ 31 := by omega
  cases hs : s.searching with
  | true => cases c <;> simp [hnot, hs]
  | false =>
    have hle := h hs
    cases c with
    | true =>
      simp [hnot]
      omega
    | false => simp

end Search

theorem foldl_tapBy (ok : Nat → Bool) (s : Search) (n : Nat) (hn : t + 2 * n = 32)
    (h : s.searching = false → s.seqStart + resolution ≤ t) :
    (List.range' t n resolution).foldl (fun s r => s.tapBy resolution r (ok r)) s =
      (List.range' t n resolution).foldl (fun s r => s.tap r (ok r)) s := by
  induction n generalizing t s with
  | zero => rfl
  | succ n ih =>
    have hres : resolution = 2 := rfl
    have ht : t < 32 := by omega
    rw [List.range'_succ, List.foldl_cons, List.foldl_cons, Search.tapBy_resolution (ok t) ht h]
    cases n with
    | zero => rfl
    | succ n =>
      have hnext : t + resolution < 31 := by omega
      exact ih _ (by omega) (Search.tap_seqStart (ok t) hnext h)

theorem readSearchBy_fullScan (ok : Nat → Nat → Bool) :
    readSearchBy fullScan ok = readSearch ok := by
  have htaps : fullScan.writeTaps = taps ∧ fullScan.readTaps = taps := by decide
  have hrow : readRow fullScan ok =
      fun s w => taps.foldl (fun s r => s.tap r (ok w r)) s.restart := by
    funext s w
    rw [readRow, htaps.2]
    exact foldl_tapBy (ok w) s.restart 16 rfl fun hs => nomatch hs
  rw [readSearchBy, hrow, htaps.1]
  rfl

def everyTap : Grid :=
  ⟨1, 0, 0, Nat.one_pos, Nat.one_lt_two_pow (by decide), Nat.one_pos, Nat.one_pos⟩

/-- All 32 read taps pass at write tap 0, and a window of 31 is reported. -/
theorem window_of_31_for_32_taps :
    (∀ r < 32, firstRow everyTap 0 r = true) ∧
      reported everyTap true (fun _ => firstRow everyTap) 0 = some ⟨0, 31⟩ := by
  decide +kernel

end BismarckPreloader.Ddr
