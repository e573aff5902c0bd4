import Mathlib.Algebra.GroupWithZero.Nat
import Mathlib.Data.List.Basic
import Mathlib.Data.List.Range
import Mathlib.Logic.Function.Basic

/-!
# Windows of the DDR calibration

Model of the searches for delay windows in `memctl_cali_dram.c`: that of
`_memctl_find_proper_RW_dealy`, which has the outcome of all taps and works bit by bit, and
that of `DDR_Calibration_Full_Scan_Reduce`, which tries one pair of taps after the other and
carries the searches of all bits along in arrays.
-/

namespace BismarckPreloader.Ddr

/-- `MEMCTL_CALI_FULL_SCAN_RESOLUTION`. -/
def resolution : Nat := 2

/-- The taps below 32 from `MEMCTL_CALI_WRITE_DELAY_START_TAP`, respectively
`MEMCTL_CALI_READ_DELAY_START_TAP`, on. Both are 0. -/
def taps : List Nat := List.range' 0 16 resolution

structure Window where
  start : Nat
  len : Nat
  deriving DecidableEq, Repr

def Window.taps (v : Window) : List Nat :=
  List.range' v.start ((v.len + 1) / resolution) resolution

/-- The variables of a search: the longest window so far, where the current sequence began and
whether the beginning of one is looked for. -/
structure Search where
  best : Window
  seqStart : Nat
  searching : Bool
  deriving DecidableEq, Repr

namespace Search

def init : Search := ⟨⟨0, 0⟩, 0, true⟩

def restart (s : Search) : Search := { s with seqStart := 0, searching := true }

def record (s : Search) (delay len : Nat) : Search :=
  if len > s.best.len then { s with best := ⟨s.seqStart, len⟩, seqStart := delay + resolution }
  else s

def tap (s : Search) (delay : Nat) (correct : Bool) : Search :=
  if s.searching then
    let s := if correct then { s with seqStart := delay, searching := false } else s
    if delay + resolution ≥ 31 then s.record delay 1 else s
  else if correct = false then
    { s.record delay (delay - s.seqStart - resolution + 1) with searching := true }
  else if delay + resolution ≥ 31 then s.record delay (delay - s.seqStart + 1)
  else s

end Search

abbrev Table := Nat → Nat → Nat → Bool

def readSearch (ok : Nat → Nat → Bool) : Search :=
  taps.foldl (fun s w => taps.foldl (fun s r => s.tap r (ok w r)) s.restart) .init

/-- The write window of a bit: the write taps are gone through for every read tap of a
window. -/
def writeSearch (ok : Nat → Nat → Bool) (v : Window) : Search :=
  v.taps.foldl (fun s r => taps.foldl (fun s w => s.tap w (ok w r)) s.restart) .init

structure BitWindows where
  read : Window
  write : Window
  deriving DecidableEq, Repr

def findProper (ok : Table) (bit : Nat) : BitWindows :=
  let read := (readSearch (ok bit)).best
  ⟨read, (writeSearch (ok bit) read).best⟩

-- ---------------------------------------------------------------------------
-- `DDR_Calibration_Full_Scan_Reduce`
-- ---------------------------------------------------------------------------

def active (mode16 : Bool) (bit : Nat) : Bool :=
  mode16 || !((7 < bit && bit < 16) || (23 < bit && bit < 32))

def activeBits (mode16 : Bool) : List Nat := (List.range 32).filter (active mode16)

structure Arrays where
  arr : Nat → Search
  last : Search

/-- A bit is loaded from the arrays, taken through a tap and stored again; a window is only
stored if it is longer than that in the array. -/
def Arrays.bitTap (a : Arrays) (delay : Nat) (correct : Nat → Bool) (bit : Nat) : Arrays :=
  let s := (a.arr bit).tap delay (correct bit)
  let best := if s.best.len > (a.arr bit).best.len then s.best else (a.arr bit).best
  ⟨Function.update a.arr bit { s with best := best }, s⟩

def Arrays.restart (a : Arrays) : Arrays := { a with arr := fun bit => (a.arr bit).restart }

def phase (bits outer inner : List Nat) (ok : Nat → Nat → Nat → Bool) (a : Arrays) : Arrays :=
  outer.foldl (fun a o => inner.foldl (fun a i => bits.foldl (fun a bit =>
    a.bitTap i (fun bit => ok bit o i) bit) a) a.restart) a

/-- A scan: the outcomes of its read phase and of its write phase, which are separate
measurements. The write phase goes through the read taps of the window that the variables of
the read phase were left with. -/
def scan (mode16 : Bool) (readOk writeOk : Table) (bit : Nat) : BitWindows :=
  let read := phase (activeBits mode16) taps taps readOk ⟨fun _ => .init, .init⟩
  let write := phase (activeBits mode16) read.last.best.taps taps (fun bit r w => writeOk bit w r)
    ⟨fun _ => .init, .init⟩
  ⟨(read.arr bit).best, (write.arr bit).best⟩

namespace Search

theorem best_record (s : Search) (delay len : Nat) :
    s.best.len < (s.record delay len).best.len ∨ (s.record delay len).best = s.best := by
  unfold record
  split
  · rename_i h
    exact .inl h
  · exact .inr rfl

theorem best_tap (s : Search) (delay : Nat) (correct : Bool) :
    s.best.len < (s.tap delay correct).best.len ∨ (s.tap delay correct).best = s.best := by
  unfold tap
  split
  · have hlast : ∀ t : Search, t.best = s.best →
        s.best.len < (if delay + resolution ≥ 31 then t.record delay 1 else t).best.len ∨
          (if delay + resolution ≥ 31 then t.record delay 1 else t).best = s.best := by
      intro t ht
      rw [← ht]
      split
      · exact best_record t delay 1
      · exact .inr rfl
    cases correct with
    | false => exact hlast s rfl
    | true => exact hlast { s with seqStart := delay, searching := false } rfl
  · split
    · exact best_record s delay _
    · split
      · exact best_record s delay _
      · exact .inr rfl

end Search

namespace Search

end Search

theorem bitTap_eq (a : Arrays) (delay : Nat) (correct : Nat → Bool) (bit : Nat) :
    a.bitTap delay correct bit =
      ⟨Function.update a.arr bit ((a.arr bit).tap delay (correct bit)),
        (a.arr bit).tap delay (correct bit)⟩ := by
  unfold Arrays.bitTap
  dsimp only
  rcases (a.arr bit).best_tap delay (correct bit) with h | h
  · rw [if_pos h]
  · rw [if_neg (by rw [h]; exact Nat.lt_irrefl _), ← h]

theorem arr_foldl_bitTap {bits : List Nat} {correct : Nat → Bool} (hn : bits.Nodup)
    (a : Arrays) (bit : Nat) :
    (bits.foldl (fun a bit => a.bitTap delay correct bit) a).arr bit =
      if bit ∈ bits then (a.arr bit).tap delay (correct bit) else a.arr bit := by
  induction bits generalizing a with
  | nil => rfl
  | cons b bits ih =>
    obtain ⟨hb, hn⟩ := List.nodup_cons.mp hn
    rw [List.foldl_cons, ih hn, bitTap_eq]
    by_cases he : bit = b
    · subst he
      simp [hb]
    · simp [he]

theorem last_foldl_bitTap {correct : Nat → Bool} (a : Arrays) (bits : List Nat) (b : Nat) :
    ((bits ++ [b]).foldl (fun a bit => a.bitTap delay correct bit) a).last =
      ((bits ++ [b]).foldl (fun a bit => a.bitTap delay correct bit) a).arr b := by
  rw [List.foldl_append, List.foldl_cons, List.foldl_nil, bitTap_eq]
  simp

theorem activeBits_nodup (mode16 : Bool) : (activeBits mode16).Nodup := List.nodup_range.filter _

theorem arr_phase {bits : List Nat} (hn : bits.Nodup) (hb : bit ∈ bits) (outer inner : List Nat)
    (ok : Nat → Nat → Nat → Bool) (a : Arrays) :
    (phase bits outer inner ok a).arr bit =
      outer.foldl (fun s o => inner.foldl (fun s i => s.tap i (ok bit o i)) s.restart)
        (a.arr bit) := by
  have hinner : ∀ (o : Nat) (inner : List Nat) (a : Arrays),
      (inner.foldl (fun a i => bits.foldl (fun a bit =>
        a.bitTap i (fun bit => ok bit o i) bit) a) a).arr bit =
        inner.foldl (fun s i => s.tap i (ok bit o i)) (a.arr bit) := by
    intro o inner
    induction inner with
    | nil => exact fun _ => rfl
    | cons i inner ih =>
      intro a
      rw [List.foldl_cons, ih, arr_foldl_bitTap hn, if_pos hb, List.foldl_cons]
  unfold phase
  induction outer generalizing a with
  | nil => rfl
  | cons o outer ih =>
    rw [List.foldl_cons, ih, hinner, List.foldl_cons]
    rfl

theorem best_phase_of_not_mem {bits : List Nat} (hn : bits.Nodup) (hb : bit ∉ bits)
    (outer inner : List Nat) (ok : Nat → Nat → Nat → Bool) (a : Arrays) :
    ((phase bits outer inner ok a).arr bit).best = (a.arr bit).best := by
  have hinner : ∀ (o : Nat) (inner : List Nat) (a : Arrays),
      (inner.foldl (fun a i => bits.foldl (fun a bit =>
        a.bitTap i (fun bit => ok bit o i) bit) a) a).arr bit = a.arr bit := by
    intro o inner
    induction inner with
    | nil => exact fun _ => rfl
    | cons i inner ih =>
      intro a
      rw [List.foldl_cons, ih, arr_foldl_bitTap hn, if_neg hb]
  unfold phase
  induction outer generalizing a with
  | nil => rfl
  | cons o outer ih =>
    rw [List.foldl_cons, ih, hinner]
    rfl

theorem last_phase (a : Arrays) (bits outer inner : List Nat) (b o i : Nat)
    (ok : Nat → Nat → Nat → Bool) :
    (phase (bits ++ [b]) (outer ++ [o]) (inner ++ [i]) ok a).last =
      (phase (bits ++ [b]) (outer ++ [o]) (inner ++ [i]) ok a).arr b := by
  unfold phase
  rw [List.foldl_append, List.foldl_cons, List.foldl_nil]
  generalize List.foldl _ a outer = a'
  rw [List.foldl_append, List.foldl_cons, List.foldl_nil]
  exact last_foldl_bitTap _ bits b

def lastBit (mode16 : Bool) : Nat := if mode16 then 31 else 23

theorem activeBits_eq (mode16 : Bool) :
    activeBits mode16 = (activeBits mode16).dropLast ++ [lastBit mode16] := by
  cases mode16 <;> decide

theorem last_read_phase (mode16 : Bool) (ok : Table) (a : Arrays) :
    (phase (activeBits mode16) taps taps ok a).last =
      (phase (activeBits mode16) taps taps ok a).arr (lastBit mode16) := by
  have htaps : taps = List.range' 0 15 resolution ++ [30] := by decide
  rw [activeBits_eq, htaps]
  exact last_phase ..

theorem mem_activeBits : bit ∈ activeBits mode16 ↔ bit < 32 ∧ active mode16 bit = true := by
  simp [activeBits]

theorem active_true (bit : Nat) : active true bit = true := rfl

theorem lastBit_mem (mode16 : Bool) : lastBit mode16 ∈ activeBits mode16 := by
  cases mode16 <;> decide

/-- What a scan finds for an active bit: its read window, and its write window at the read
taps of the last bit. -/
theorem scan_active (readOk writeOk : Table) (hb : bit ∈ activeBits mode16) :
    scan mode16 readOk writeOk bit =
      ⟨(readSearch (readOk bit)).best,
        (writeSearch (writeOk bit) (readSearch (readOk (lastBit mode16))).best).best⟩ := by
  unfold scan
  dsimp only
  rw [last_read_phase, arr_phase (activeBits_nodup mode16) hb,
    arr_phase (activeBits_nodup mode16) (lastBit_mem mode16),
    arr_phase (activeBits_nodup mode16) hb]
  rfl

theorem scan_16bit (readOk writeOk : Table) (hb : bit < 32) :
    scan true readOk writeOk bit =
      ⟨(readSearch (readOk bit)).best,
        (writeSearch (writeOk bit) (readSearch (readOk 31)).best).best⟩ :=
  scan_active readOk writeOk (mem_activeBits.mpr ⟨hb, active_true bit⟩)

theorem scan_of_not_active (h : active mode16 bit = false) (readOk writeOk : Table) :
    scan mode16 readOk writeOk bit = ⟨⟨0, 0⟩, ⟨0, 0⟩⟩ := by
  have hb : bit ∉ activeBits mode16 := fun hb => by simp [(mem_activeBits.mp hb).2] at h
  unfold scan
  dsimp only
  rw [best_phase_of_not_mem (activeBits_nodup mode16) hb,
    best_phase_of_not_mem (activeBits_nodup mode16) hb]
  rfl

def FindsOwnWindows (ok : Table) : Prop := ∀ bit < 32, scan true ok ok bit = findProper ok bit

def SharesReadTaps (ok : Table) : Prop :=
  ∀ bit < 32, (writeSearch (ok bit) (readSearch (ok 31)).best).best =
    (writeSearch (ok bit) (readSearch (ok bit)).best).best

theorem findsOwnWindows_iff (ok : Table) : FindsOwnWindows ok ↔ SharesReadTaps ok := by
  unfold FindsOwnWindows SharesReadTaps
  refine forall₂_congr fun bit hb => ?_
  rw [scan_16bit ok ok hb, findProper, BitWindows.mk.injEq]
  exact and_iff_right rfl

def splitTable : Table := fun bit _ r => if bit = 31 then r < 16 else 16 ≤ r

/-- The other bits are searched where they never pass. -/
theorem splitTable_not_findsOwnWindows : ¬FindsOwnWindows splitTable := by
  intro h
  have h0 := h 0 (by decide)
  rw [scan_16bit _ _ (by decide), findProper] at h0
  revert h0
  decide +kernel

end BismarckPreloader.Ddr
