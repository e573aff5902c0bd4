import Mathlib.Algebra.GroupWithZero.Nat
import BismarckPreloader.Lib.Loops
import BismarckPreloader.Lib.Memory
import BismarckPreloader.Lib.Rings

/-!
# Demand paging

The preloader is larger than the SRAM. Its mapped part is linked to KSEG2, and a
TLB miss loads the missing page from flash into one of the SRAM frames
(`mmu_drv.c`, `ab_tlb_isr.S`). A TLB entry maps a pair of pages, one in each half.
`_page` records for each frame the half-entry it was handed to, and four level
lists order the frames for eviction.

The sizes of the virtual area and of the TLB differ between platforms; the SRAM
does not. Cache maintenance and the registers saved by the handler are left out. An
endless loop of the driver (its internal checks, a failed read) and a null pointer
are errors here.
-/

namespace BismarckPreloader.Mmu

def tlbPageShift : Nat := 12
def tlbPageSize : Nat := 1 <<< tlbPageShift
def tlbEntryhiMask : Nat := 0xFFFFE000
def tlbAsidMask : Nat := 0x3F
def ottoSramStart : Nat := 0x9f000000
def ottoSramSize : Nat := 0x8000
def ottoSramMask : Nat := ottoSramSize - 1
def ottoKseg2Base : Nat := 0xC0000000
def mmuPhyBaseAddr : Nat := ottoSramStart
def mmuVmBaseAddr : Nat := ottoKseg2Base
def psvaFree : Nat := 0xcafecafe
def psvaNotVm : Nat := 0xdeaddead

abbrev numPaPages : Nat := 8
abbrev numLevel : Nat := 4
abbrev Frame := Fin numPaPages
abbrev Level := Fin numLevel

instance numLevel_neZero : NeZero numLevel := ⟨Nat.succ_ne_zero 3⟩

example : numPaPages = ottoSramSize >>> tlbPageShift := rfl

/-- What `info.in` sets per platform: the size of the virtual area in bytes, and the
number of TLB entries as a power of two. The index register has six bits. -/
structure Platform where
  mmuVmSize : Nat
  tlbBits : Nat
  bits_pos : 0 < tlbBits
  bits_le : tlbBits ≤ 6

namespace Platform

def numTlbEntry (P : Platform) : Nat := 2 ^ P.tlbBits

def numTlbMask (P : Platform) : Nat := P.numTlbEntry - 1

def numVaPages (P : Platform) : Nat := (P.mmuVmSize + tlbPageSize - 1) / tlbPageSize

end Platform

def platform9603cvd : Platform := ⟨0x40000, 5, Nat.succ_pos 4, Nat.le_succ 5⟩

inductive Node where
  | null
  | level (l : Level)
  | page (f : Frame)
  deriving DecidableEq

structure EntryLo where
  pfn : Nat
  v : Bool
  deriving DecidableEq

structure TlbEntry where
  hi : Nat
  lo0 : EntryLo
  lo1 : EntryLo
  deriving DecidableEq

structure PageSt where
  pa : Nat
  vpageNum : Nat
  entLoIdx : Nat
  listNum : Nat
  deriving DecidableEq

structure State where
  links : Links Node
  page : Frame → PageSt
  lowestLevel : Level
  currentAsid : Nat
  tlb : Nat → TlbEntry
  ram : Mem

inductive Stuck where
  | belowVm | behindVm | bothValid | zeroPfn | notVm | vpageRange | noVictim | badPointer
  | readFailed
  deriving DecidableEq

def paByPage (i : Nat) : Nat := (i <<< tlbPageShift) + mmuPhyBaseAddr
def paToPfn (pa : Nat) : Nat := pa >>> tlbPageShift
def promoLevel (l : Nat) : Level := Fin.ofNat numLevel (l + 1)
def promoLevel2 (l : Nat) : Level := Fin.ofNat numLevel (l + 2)
def getEntryhi (badvaddr : Nat) : Nat := badvaddr &&& tlbEntryhiMask
def entryloIdx (badvaddr : Nat) : Nat := (badvaddr >>> tlbPageShift) &&& 0x1

def ppageNum (pfn : Nat) : Frame :=
  ⟨pfn &&& (ottoSramMask >>> tlbPageShift), Nat.lt_succ_of_le Nat.and_le_right⟩

namespace State

def getEntry (s : State) (idx : Nat) : TlbEntry := s.tlb (idx % 64)

def setEntry (s : State) (idx : Nat) (e : TlbEntry) : State :=
  { s with tlb := Function.update s.tlb (idx % 64) e }

def tlbUpdateBadvaddrEntry (s : State) (k1 entryHi : Nat) (entryLo0 entryLo1 : EntryLo) : State :=
  s.setEntry k1 ⟨entryHi, entryLo0, entryLo1⟩

def invalidTlbEntry (s : State) (vpageNum loIndex : Nat) : State :=
  let cp0Index := vpageNum >>> 1
  let e := s.getEntry cp0Index
  if loIndex ≠ 0 then s.setEntry cp0Index { e with lo1 := { e.lo1 with v := false } }
  else s.setEntry cp0Index { e with lo0 := { e.lo0 with v := false } }

def insertToListTail (s : State) (listNum : Level) (f : Frame) : State :=
  { s with links := s.links.insertTail (.level listNum) (.page f) }

def moveToList (s : State) (newListNum : Level) (f : Frame) : Except Stuck State :=
  if s.links.next (.page f) = .null then .error .badPointer
  else .ok { s with links := s.links.moveTail (.level newListNum) (.page f) }

def recordPage (s : State) (f : Frame) (vpageNum entLoIdx : Nat) : State :=
  let p := { s.page f with vpageNum := vpageNum, entLoIdx := entLoIdx }
  { s with page := Function.update s.page f p }

/-- A frame in use gains weight. `list_num` is the one `mmu_drv_init` has set: moving
a page does not change it. -/
def promote (s : State) (pfn : Nat) : Except Stuck State :=
  let f := ppageNum pfn
  let promoteListNum := promoLevel (s.page f).listNum
  if promoteListNum ≠ s.lowestLevel then s.moveToList promoteListNum f else .ok s

def increaseAsid (s : State) : State :=
  { s with currentAsid := (s.currentAsid + 1) &&& tlbAsidMask }

def syncEntryhi (s : State) (hi : Nat) : Nat := (hi &&& (0xFFFFFFFF ^^^ tlbAsidMask)) ||| s.currentAsid

end State

def clearEntry (s : State) (idx : Nat) : State :=
  s.setEntry idx ⟨(ottoKseg2Base >>> (tlbPageShift + 1) + idx) <<< (tlbPageShift + 1),
    ⟨0, false⟩, ⟨0, false⟩⟩

/-- Each list is empty, and `_page` is zeroed. -/
def clearPages (s : State) : State :=
  { s with
    page := fun _ => ⟨0, 0, 0, 0⟩
    links :=
      let self : Node → Node
        | .level l => .level l
        | _ => .null
      ⟨self, self⟩ }

def initPage (phyStart phyEnd : Nat) (x : State × Nat) (f : Frame) : State × Nat :=
  let (s, c) := x
  let pa := paByPage f
  if phyStart ≤ pa ∧ pa < phyEnd then
    ({ s with page := Function.update s.page f ⟨pa, psvaFree, 0, 0⟩ }.insertToListTail 0 f, c + 1)
  else ({ s with page := Function.update s.page f ⟨pa, psvaNotVm, 0, 0⟩ }, c)

def mmuDrvInit (P : Platform) (phyStart phyEnd : Nat) (s : State) : State × Nat :=
  let s := (List.range P.numTlbEntry).foldl clearEntry s
  (List.finRange numPaPages).foldl (initPage phyStart phyEnd) (clearPages s, 0)

-- ---------------------------------------------------------------------------
-- Misses
-- ---------------------------------------------------------------------------

/-- The first frame of the first list that is not empty, from `level` on. When all
lists are empty the search goes round for ever. -/
def findVictim (links : Links Node) : Nat → Level → Except Stuck (Level × Frame)
  | 0, _ => .error .noVictim
  | fuel + 1, level => match links.next (.level level) with
    | .page f => .ok (level, f)
    | .null => .error .badPointer
    | .level l =>
      if l = level then findVictim links fuel (promoLevel level) else .error .badPointer

/-- The victim's old half-entry is invalidated; the victim is recorded for the new
one and moved two levels up. The flag says whether an entry was invalidated. -/
def State.takeVictim (P : Platform) (s : State) (vic : Frame) (vpageNum entLoIdx : Nat) :
    Except Stuck (State × Bool) :=
  let old := s.page vic
  if old.vpageNum = psvaNotVm then .error .notVm
  else if old.vpageNum ≠ psvaFree ∧ P.numVaPages ≤ old.vpageNum then .error .vpageRange
  else do
    let inv := decide (old.vpageNum ≠ psvaFree)
    let s := if inv then s.invalidTlbEntry old.vpageNum old.entLoIdx else s
    let s := s.recordPage vic vpageNum entLoIdx
    let s ← s.moveToList (promoLevel2 s.lowestLevel) vic
    pure (s, inv)

def vicVa (vicPa : Nat) : Nat := vicPa ||| 0x80000000

def State.promoteBuddy (s : State) (entLoIdx : Nat) (entryLo0 entryLo1 : EntryLo) :
    Except Stuck State :=
  let loBud := if entLoIdx ≠ 0 then entryLo0 else entryLo1
  if loBud.pfn ≠ 0 then s.promote loBud.pfn else .ok s

/-- The end of `mmu_tlb_miss_va_to_pa`. The victim may have been the other half of the
entry, so the entry is read again if one was invalidated. -/
def State.writeNewEntry (s : State) (k1 badvaddr : Nat) (entryLo0 entryLo1 : EntryLo)
    (vpageNum vicPa : Nat) (inv : Bool) : State :=
  let newHi := s.syncEntryhi (getEntryhi badvaddr)
  let newLo : EntryLo := ⟨paToPfn vicPa, true⟩
  let e := s.getEntry (vpageNum >>> 1)
  let entryLo0 := if inv then e.lo0 else entryLo0
  let entryLo1 := if inv then e.lo1 else entryLo1
  if entryloIdx badvaddr ≠ 0 then s.tlbUpdateBadvaddrEntry k1 newHi entryLo0 newLo
  else s.tlbUpdateBadvaddrEntry k1 newHi newLo entryLo1

section Misses

variable (P : Platform) (read : Nat → Option (Nat → UInt8))

def mmuTlbMissVaToPa (k1 badvaddr : Nat) (entryLo0 entryLo1 : EntryLo) (vpageNum : Nat)
    (s : State) : Except Stuck State :=
  if badvaddr < mmuVmBaseAddr then .error .belowVm
  else if mmuVmBaseAddr + P.mmuVmSize ≤ badvaddr then .error .behindVm
  else if entryLo0.v ∧ entryLo1.v then .error .bothValid
  else do
    let (lowestLevel, vic) ← findVictim s.links numLevel s.lowestLevel
    let s := { s with lowestLevel := lowestLevel }
    let (s, inv) ← s.takeVictim P vic vpageNum (entryloIdx badvaddr)
    let vicPa := (s.page vic).pa
    match read vpageNum with
    | none => .error .readFailed
    | some data =>
      let s := { s with ram := s.ram.copy (vicVa vicPa) data tlbPageSize }
      let s ← s.promoteBuddy (entryloIdx badvaddr) entryLo0 entryLo1
      pure (s.increaseAsid.writeNewEntry k1 badvaddr entryLo0 entryLo1 vpageNum vicPa inv)

/-- The second component says whether the miss is resolved: the half-entry is valid and
only its ASID is too old. -/
def mmuTlbMissCheckFirst (k1 badvaddr : Nat) (entryLo0 entryLo1 : EntryLo) (s : State) :
    Except Stuck (State × Bool) :=
  let lo := if entryloIdx badvaddr ≠ 0 then entryLo1 else entryLo0
  if lo.v = false then .ok (s, false)
  else if lo.pfn = 0 then .error .zeroPfn
  else do
    let entryHi := s.syncEntryhi (getEntryhi badvaddr)
    let s := s.tlbUpdateBadvaddrEntry k1 entryHi entryLo0 entryLo1
    let s ← s.promote lo.pfn
    pure (s, true)

/-- No entry matches the address, or the one that matches is not valid. -/
inductive MissKind where
  | refill
  | invalid
  deriving DecidableEq

structure Miss where
  kind : MissKind
  badvaddr : Nat
  deriving DecidableEq

def Miss.vpageNum (m : Miss) : Nat := (m.badvaddr >>> tlbPageShift) &&& P.numTlbMask

def plrTlbMissIsr (s : State) (m : Miss) : Except Stuck State :=
  let vpageNum := m.vpageNum P
  let k1 := vpageNum >>> 1
  let e := s.getEntry k1
  match m.kind with
  | .refill => do
    let (s, resolved) ← mmuTlbMissCheckFirst k1 m.badvaddr e.lo0 e.lo1 s
    if resolved then pure s
    else mmuTlbMissVaToPa P read k1 m.badvaddr e.lo0 e.lo1 vpageNum s
  | .invalid => mmuTlbMissVaToPa P read k1 m.badvaddr e.lo0 e.lo1 vpageNum s

end Misses

end BismarckPreloader.Mmu
