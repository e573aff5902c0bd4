import Mathlib.Data.List.Basic
import BismarckPreloader.Lib.Loops
import BismarckPreloader.Lib.Memory
import BismarckPreloader.Nand.Page

/-!
# Collecting the signature header

The signature of an authenticated image is a flattened tree that is stored in pages
of their own, each of two BCH sectors. `fdt_probe` scans the flash for them and copies
them into a buffer of its caller. Every page says which part of the header it is and
how many parts there are; a bitmap keeps track of the parts.

`probePass` is one pass of the loop; `probePass_of_not_correctable` and
`probePass_of_correctable` say what it does with a page.
-/

namespace BismarckPreloader.Auth

open Nand

def fdtMagic : UInt32 := 0xd00dfeed
def fdtSwMagic : UInt32 := ~~~fdtMagic
def bchSectorSize : Nat := 512
def plrFlPageUsage : Nat := bchSectorSize + bchSectorSize

/-- The size of the buffer that `auth_mod_verify_img` allocates. -/
def fdtBufSize : Nat := 2048

/-- A raw page seen through `plr_first_load_layout_t`, after the engine has gone over
both sectors. -/
structure HeaderPage extends FirstLoad where
  totalNumPage : UInt16
  data0 : Nat → UInt8
  data1 : Nat → UInt8

namespace HeaderPage

def Correctable (p : HeaderPage) : Prop := ¬p.sector0.Uncorrectable ∧ ¬p.sector1.Uncorrectable

instance (p : HeaderPage) : Decidable p.Correctable := inferInstanceAs (Decidable (_ ∧ _))

def IsHeader (p : HeaderPage) : Prop := p.signature = fdtSwMagic

instance (p : HeaderPage) : Decidable p.IsHeader := inferInstanceAs (Decidable (_ = _))

def index (p : HeaderPage) : Nat := p.pageIndex.toNat

def total (p : HeaderPage) : Nat := p.totalNumPage.toNat

def Reasonable (p : HeaderPage) : Prop := p.IsHeader ∧ p.index < p.total

instance (p : HeaderPage) : Decidable p.Reasonable := inferInstanceAs (Decidable (_ ∧ _))

def data (p : HeaderPage) (k : Nat) : UInt8 :=
  if k < bchSectorSize then p.data0 k else p.data1 (k - bchSectorSize)

def logIndex (p : HeaderPage) : BitVec 32 := BitVec.twoPow 32 (p.index % 32)

end HeaderPage

structure ProbeState where
  numPageToCopy : Int
  pageLog : BitVec 32
  fdt : Mem
  copied : List HeaderPage

structure ProbeFault where
  offset : Nat
  deriving DecidableEq, Repr

abbrev ProbeOutcome := Outcome ProbeState (BitVec 32 × ProbeState) ProbeFault

namespace ProbeState

def init (fdt : Mem) : ProbeState := ⟨-1, 0#32, fdt, []⟩

def announce (s : ProbeState) (p : HeaderPage) : ProbeState :=
  if s.numPageToCopy < 0 then { s with numPageToCopy := p.total } else s

def copyPage (s : ProbeState) (p : HeaderPage) : ProbeState :=
  let plrBuf := p.index * plrFlPageUsage
  { numPageToCopy := s.numPageToCopy - 1
    pageLog := s.pageLog ||| p.logIndex
    fdt := (s.fdt.copy plrBuf p.data0 bchSectorSize).copy (plrBuf + bchSectorSize) p.data1
      bchSectorSize
    copied := s.copied ++ [p] }

def Misses (s : ProbeState) (p : HeaderPage) : Prop := s.pageLog &&& p.logIndex = 0#32

instance (s : ProbeState) (p : HeaderPage) : Decidable (s.Misses p) :=
  inferInstanceAs (Decidable (_ = _))

end ProbeState

def copyHeader (s : ProbeState) (p : HeaderPage) : ProbeOutcome :=
  -- the index is compared with the page's own total only
  if fdtBufSize < p.index * plrFlPageUsage + plrFlPageUsage then
    .halt ⟨p.index * plrFlPageUsage⟩
  else
    let s := s.copyPage p
    if s.numPageToCopy = 0 then .ret (0#32, s) else .next s

/-- One pass of the loop of `fdt_probe` on NAND. -/
def probePass (s : ProbeState) (p : HeaderPage) : ProbeOutcome :=
  if checkEccCtrlStatus p.sector0 = eccCtrlErr then .ret (eccCtrlErr, s)
  else if checkEccCtrlStatus p.sector1 = eccCtrlErr then .ret (eccCtrlErr, s)
  else if p.signature ≠ fdtSwMagic then .next s
  else
    let s := s.announce p
    if p.total ≤ p.index then .next s
    else if s.Misses p then copyHeader s p
    else .next s

/-- `fdt_probe` on NAND: the result and the buffer. The loop that ends with the flash
returns 0 as well. -/
def fdtProbe (flash : List HeaderPage) (fdt : Mem) : Except ProbeFault (BitVec 32 × ProbeState) :=
  match Scan.run probePass (.init fdt) flash with
  | .next s => .ok (0#32, s)
  | .ret r => .ok r
  | .halt e => .error e

def ProbeReaches (flash : List HeaderPage) (fdt : Mem) : ProbeState → HeaderPage → Prop :=
  Scan.Reaches probePass (.init fdt) flash

-- ---------------------------------------------------------------------------
-- What a pass does
-- ---------------------------------------------------------------------------

section Pass

variable {s : ProbeState} {p : HeaderPage}

@[simp] theorem announce_pageLog : (s.announce p).pageLog = s.pageLog := by
  unfold ProbeState.announce
  split <;> rfl

@[simp] theorem announce_copied : (s.announce p).copied = s.copied := by
  unfold ProbeState.announce
  split <;> rfl

@[simp] theorem announce_fdt : (s.announce p).fdt = s.fdt := by
  unfold ProbeState.announce
  split <;> rfl

theorem announce_misses : (s.announce p).Misses q ↔ s.Misses q := by
  rw [ProbeState.Misses, ProbeState.Misses, announce_pageLog]

theorem probePass_of_not_correctable (h : ¬p.Correctable) :
    probePass s p = .ret (eccCtrlErr, s) := by
  rw [HeaderPage.Correctable, ← checkEccCtrlStatus_eq_err, ← checkEccCtrlStatus_eq_err] at h
  unfold probePass
  split
  next => rfl
  next h0 =>
    rw [if_pos]
    by_contra h1
    exact h ⟨h0, h1⟩

/-- A page that decodes is copied when it is a part of the header that is still missing;
otherwise it may still announce the number of parts. -/
theorem probePass_of_correctable (h : p.Correctable) :
    probePass s p =
      if p.Reasonable ∧ s.Misses p then copyHeader (s.announce p) p
      else .next (if p.IsHeader then s.announce p else s) := by
  rw [HeaderPage.Correctable, ← checkEccCtrlStatus_eq_err, ← checkEccCtrlStatus_eq_err] at h
  rw [probePass, if_neg h.1, if_neg h.2]
  by_cases hh : p.IsHeader
  · have hsig : ¬p.signature ≠ fdtSwMagic := not_not.mpr hh
    rw [if_neg hsig, if_pos hh]
    by_cases hlt : p.index < p.total
    · simp only [Nat.not_le.mpr hlt, if_false, announce_misses, HeaderPage.Reasonable, hh, hlt,
        true_and]
    · have hskip : ¬(p.Reasonable ∧ s.Misses p) := fun hr => hlt hr.1.2
      rw [if_neg hskip]
      simp only [Nat.not_lt.mp hlt, if_true]
  · rw [if_pos (show p.signature ≠ fdtSwMagic from hh), if_neg (fun hr => hh hr.1.1), if_neg hh]

theorem copyHeader_eq : copyHeader s p =
    if p.index < 2 then
      if (s.copyPage p).numPageToCopy = 0 then .ret (0#32, s.copyPage p) else .next (s.copyPage p)
    else .halt ⟨p.index * plrFlPageUsage⟩ := by
  have hfit : fdtBufSize < p.index * plrFlPageUsage + plrFlPageUsage ↔ ¬p.index < 2 := by
    simp only [fdtBufSize, plrFlPageUsage, bchSectorSize]
    omega
  by_cases hi : p.index < 2
  · rw [copyHeader, if_neg (by rwa [hfit, not_not]), if_pos hi]
  · rw [copyHeader, if_pos (hfit.mpr hi), if_neg hi]

end Pass

end BismarckPreloader.Auth
