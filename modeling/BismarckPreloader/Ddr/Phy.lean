import BismarckPreloader.Ddr.Windows

/-!
# Delay registers of the DDR PHY

Model of `_memctl_set_phy_delay_dqrf` for the RTL9603C-VD (`otto_is_apro()` false). It sets
the delays of a bit from its windows. The delay of the data mask of a byte is the mean of the
smallest and the largest write tap of the byte, which static variables collect.
-/

namespace BismarckPreloader.Ddr

/-- The patch from the eFuse (`EFPH_*`). -/
structure Efuse where
  patchNum : Nat
  dqrDelayEn : Nat
  dqwDelayEn : Nat
  dmDelayEn : Nat
  dqrDelay : Nat
  dqwDelay : Nat
  dmDelay : Nat

structure Board where
  memClkMhz : Nat
  efuse : Efuse

def u8 (n : Nat) : Nat := n % 2 ^ 8

def defaultHoldtime (mhz : Nat) : Nat :=
  u8 ((1000 * 1000 / mhz / 2 + (2 ^ 32 - 150)) % 2 ^ 32 / 2 / 20)

namespace Board

variable (c : Board)

def rHoldtime : Nat :=
  if c.memClkMhz = 600 then 16
  else if c.memClkMhz = 525 then 16
  else defaultHoldtime c.memClkMhz

def wHoldtime : Nat :=
  if c.memClkMhz = 600 then 17
  else if c.memClkMhz = 525 then 18
  else defaultHoldtime c.memClkMhz

def patch (en delay tap : Nat) : Nat :=
  if c.efuse.patchNum ≠ 0 ∧ en = 1 then
    if delay < 8 then
      if tap ≥ delay + 1 then tap - (delay + 1) else 0
    else tap + (delay + 1 - 8)
  else tap

def rDelayTap (v : Window) : Nat :=
  let tap :=
    if v.start = 0 ∧ v.len ≥ c.rHoldtime then u8 (v.len - c.rHoldtime)
    else if v.start = 0 ∧ v.len < c.rHoldtime then 0
    else u8 (v.len / 2)
  u8 (c.patch c.efuse.dqrDelayEn c.efuse.dqrDelay tap)

def wDelayTap (v : Window) : Nat :=
  let tap :=
    if v.start = 0 ∧ v.len ≥ c.wHoldtime then u8 (v.start + (v.len - c.wHoldtime))
    else if v.start = 0 ∧ v.len < c.wHoldtime then u8 (v.start + 0)
    else u8 (v.start + v.len / 2)
  u8 (c.patch c.efuse.dqwDelayEn c.efuse.dqwDelay tap)

def dmDelay (lo hi : Nat) : Nat := c.patch c.efuse.dmDelayEn c.efuse.dmDelay ((lo + hi) / 2)

end Board

/-- The registers and the static variables of the function, those of the two bytes by their
number. -/
structure Phy where
  dacdqr : Nat → Nat
  dwdqor : Nat → Nat
  dcdqmr : Nat
  dwdmor : Nat
  dmDelayMin : Nat → Nat
  dmDelayMax : Nat → Nat

def dqWord (c : Board) (v : BitWindows) : Nat :=
  (c.wDelayTap v.write % 32) <<< 24 ||| ((v.read.start + v.read.len) % 32) <<< 16 |||
    ((v.read.start + c.rDelayTap v.read) % 32) <<< 8 ||| v.read.start % 32

/-- `_memctl_set_phy_delay_dqrf`. -/
def setPhyDelayDqrf (c : Board) (p : Phy) (bit : Nat) (v : BitWindows) : Phy :=
  let w := c.wDelayTap v.write
  let p := { p with dacdqr := Function.update p.dacdqr bit (dqWord c v) }
  let p := if bit < 16 then
      { p with dwdqor :=
          Function.update p.dwdqor (bit / 4) (p.dwdqor (bit / 4) ||| w <<< (bit % 4 * 8)) }
    else p
  if bit < 16 then
    { p with
      dmDelayMin := Function.update p.dmDelayMin (bit / 8) (min w (p.dmDelayMin (bit / 8)))
      dmDelayMax := Function.update p.dmDelayMax (bit / 8) (max w (p.dmDelayMax (bit / 8))) }
  else if bit = 31 then
    let dm0 := c.dmDelay (p.dmDelayMin 0) (p.dmDelayMax 0)
    let dm1 := c.dmDelay (p.dmDelayMin 1) (p.dmDelayMax 1)
    { p with
      dcdqmr := (dm1 % 32) <<< 16 ||| (dm0 % 32) <<< 24
      dwdmor := (dm0 % 32) <<< 16 ||| (dm1 % 32) <<< 24 }
  else p

theorem setPhyDelayDqrf_lower (c : Board) (p : Phy) (v : BitWindows) (hb : bit < 16) :
    setPhyDelayDqrf c p bit v =
      { p with
        dacdqr := Function.update p.dacdqr bit (dqWord c v)
        dwdqor := Function.update p.dwdqor (bit / 4)
          (p.dwdqor (bit / 4) ||| c.wDelayTap v.write <<< (bit % 4 * 8))
        dmDelayMin := Function.update p.dmDelayMin (bit / 8)
          (min (c.wDelayTap v.write) (p.dmDelayMin (bit / 8)))
        dmDelayMax := Function.update p.dmDelayMax (bit / 8)
          (max (c.wDelayTap v.write) (p.dmDelayMax (bit / 8))) } := by
  simp [setPhyDelayDqrf, hb]

theorem setPhyDelayDqrf_upper (c : Board) (p : Phy) (v : BitWindows) (hb : ¬bit < 16) :
    (setPhyDelayDqrf c p bit v).dwdqor = p.dwdqor ∧
      (setPhyDelayDqrf c p bit v).dmDelayMin = p.dmDelayMin ∧
      (setPhyDelayDqrf c p bit v).dmDelayMax = p.dmDelayMax := by
  unfold setPhyDelayDqrf
  by_cases h31 : bit = 31 <;> simp [hb, h31]

def setPhyDelays (c : Board) (p : Phy) (calls : List (Nat × BitWindows)) : Phy :=
  calls.foldl (fun p q => setPhyDelayDqrf c p q.1 q.2) p

/-- A scan as far as it sets delays: the word that `_memctl_set_phy_delay_all` has left in the
registers of all bits, the windows, and the number of bits that are set from them. -/
structure Setting where
  probe : Nat
  windows : Nat → BitWindows
  handled : Nat

def Setting.calls (x : Setting) : List (Nat × BitWindows) :=
  (List.range x.handled).map fun bit => (bit, x.windows bit)

def Setting.apply (c : Board) (p : Phy) (x : Setting) : Phy :=
  setPhyDelays c { p with dacdqr := fun _ => x.probe } x.calls

end BismarckPreloader.Ddr
