import Mathlib.Data.List.Basic
import Mathlib.Data.List.Perm.Basic

/-!
# The partition table of the flash layout

The entries of `part_info` in `swp_flash_layout.c`. A list of entries stands for the pointers of
`pi_ptr` together with what they point to.
-/

namespace BismarckPreloader.Layout

inductive PartId
  | cfgfs | env2 | opt3 | opt4 | kernel1 | kernel2 | rootfs1 | rootfs2
  | endMark | env | app | ubidev | cfgSt | boot
  deriving DecidableEq, Repr

namespace PartId

/-- The indices of `part_info`, `SWP_FL_BOOT` being the last. -/
def all : List PartId :=
  [cfgfs, env2, opt3, opt4, kernel1, kernel2, rootfs1, rootfs2, endMark, env, app, ubidev, cfgSt,
    boot]

theorem mem_all (i : PartId) : i ∈ all := by cases i <;> decide

theorem nodup_all : all.Nodup := by decide

/-- The names in `part_info`. -/
def name : PartId → List Char
  | cfgfs => ['c', 'o', 'n', 'f', 'i', 'g']
  | env2 => ['e', 'n', 'v', '2']
  | opt3 => ['f', 'r', 'a', 'm', 'e', 'w', 'o', 'r', 'k', '1']
  | opt4 => ['f', 'r', 'a', 'm', 'e', 'w', 'o', 'r', 'k', '2']
  | kernel1 => ['k', '0']
  | kernel2 => ['k', '1']
  | rootfs1 => ['r', '0']
  | rootfs2 => ['r', '1']
  | endMark => ['E', 'N', 'D']
  | env => ['e', 'n', 'v']
  | app => ['a', 'p', 'p']
  | ubidev => ['u', 'b', 'i', '_', 'd', 'e', 'v', 'i', 'c', 'e']
  | cfgSt => ['s', 't', 'a', 't', 'i', 'c', '_', 'c', 'o', 'n', 'f']
  | boot => ['b', 'o', 'o', 't']

end PartId

/-- `swp_part_info_t`. The code compares names as pointers into `part_info`, so that the index
stands for the name. -/
structure PartInfo where
  id : PartId
  base : Nat
  size : Nat
  deriving DecidableEq, Repr

def arraySize : Nat := 14

def nonEmpty (ps : List PartInfo) : List PartInfo := ps.filter (·.size ≠ 0)

def Covers (a : Nat) : List PartInfo → Nat → Prop
  | [], e => a = e
  | p :: ps, e => p.base = a ∧ Covers (a + p.size) ps e

def Tiles (ps : List PartInfo) (e : Nat) : Prop := Covers 0 (nonEmpty ps) e

end BismarckPreloader.Layout
