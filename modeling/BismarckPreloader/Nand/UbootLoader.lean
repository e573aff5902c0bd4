import BismarckPreloader.Lib.Loops
import BismarckPreloader.Lib.Memory
import BismarckPreloader.Nand.Page

/-!
# The U-Boot loader

`ecc_uboot_to_dram` reads the flash from block 1 on, page by page, and copies
the chunks of the U-Boot image to DRAM. The first page with the U-Boot signature
fixes the number of chunks and copies; from then on a page is taken when its
chunk is still missing.

The scan is `Scan.run ubootPass`. `Takes` says when a pass copies its page;
`ubootPass_of_takes` and `ubootPass_of_not_takes` say what a pass does in either
case, and every property of the loader is derived from these two.
-/

namespace BismarckPreloader.Nand

/-- The variables that live across passes of the loop. `page_idx` and `need_cpy`
are set anew before they are read. -/
structure LoaderState where
  totalUbootPages : Nat
  totalUbootCopies : Nat
  cntValidPage : Nat
  ubootIdx : Nat
  pageValidTable : List UInt8
  dram : Mem

/-- An access outside `page_valid_table` or outside the DRAM area of the image. -/
inductive LoaderFault where
  | tableRead (i : Nat)
  | tableWrite (i : Nat)
  | dramWrite (addr : Nat)
  deriving DecidableEq, Repr

abbrev LoaderOutcome := Outcome LoaderState (Int × LoaderState) LoaderFault

namespace LoaderState

def init (b : Board) (dram : Mem) : LoaderState where
  totalUbootPages := 0
  totalUbootCopies := 0
  cntValidPage := 0
  ubootIdx := 0
  pageValidTable := List.replicate (b.maxUbootSize / b.pageSize) 0
  dram := dram

def adopt (s : LoaderState) (o : PlrOob) : LoaderState :=
  { s with
    totalUbootPages := o.totalChunk.toNat
    totalUbootCopies := o.numCopy.toNat
    ubootIdx := o.idxCopy.toNat }

def store (s : LoaderState) (b : Board) (pageIdx : Nat) (data : Nat → UInt8) : LoaderState :=
  { s with
    dram := s.dram.copy (b.eccDecodedUbootAddr + b.pageSize * pageIdx) data b.pageSize
    pageValidTable := s.pageValidTable.set pageIdx 1
    cntValidPage := s.cntValidPage + 1 }

variable (s : LoaderState) (b : Board) (o : PlrOob) (i : Nat) (data : Nat → UInt8)

@[simp] theorem adopt_dram : (s.adopt o).dram = s.dram := rfl
@[simp] theorem adopt_pageValidTable : (s.adopt o).pageValidTable = s.pageValidTable := rfl
@[simp] theorem adopt_cntValidPage : (s.adopt o).cntValidPage = s.cntValidPage := rfl

@[simp] theorem store_dram : (s.store b i data).dram =
    s.dram.copy (b.eccDecodedUbootAddr + b.pageSize * i) data b.pageSize := rfl
@[simp] theorem store_pageValidTable :
    (s.store b i data).pageValidTable = s.pageValidTable.set i 1 := rfl
@[simp] theorem store_cntValidPage : (s.store b i data).cntValidPage = s.cntValidPage + 1 := rfl
@[simp] theorem store_totalUbootPages :
    (s.store b i data).totalUbootPages = s.totalUbootPages := rfl
@[simp] theorem store_totalUbootCopies :
    (s.store b i data).totalUbootCopies = s.totalUbootCopies := rfl
@[simp] theorem store_ubootIdx : (s.store b i data).ubootIdx = s.ubootIdx := rfl

end LoaderState

/-- The test at the foot of the loop. `uboot_idx` is the copy of the first page
recognised, not of the page just read. -/
def giveUpTest (s : LoaderState) (pageIdx : Nat) : LoaderOutcome :=
  if s.ubootIdx + 1 = s.totalUbootCopies ∧ pageIdx + 1 = s.totalUbootPages then .ret (-2, s)
  else .next s

def copyChunk (b : Board) (s : LoaderState) (pageIdx : Nat) (data : Nat → UInt8) : LoaderOutcome :=
  -- the source compares the index with neither bound
  if b.maxUbootSize < b.pageSize * pageIdx + b.pageSize then
    .halt (.dramWrite (b.eccDecodedUbootAddr + b.pageSize * pageIdx))
  else if pageIdx < s.pageValidTable.length then
    let s' := s.store b pageIdx data
    if s'.cntValidPage = s'.totalUbootPages then .ret (s'.totalUbootPages, s')
    else giveUpTest s' pageIdx
  else .halt (.tableWrite pageIdx)

/-- One pass of the loop of `ecc_uboot_to_dram`. -/
def ubootPass (b : Board) (s : LoaderState) (p : PageRead) : LoaderOutcome :=
  -- only this one value, not every status that `IS_ECC_DECODE_FAIL` recognises
  if p.sts = eccCtrlErr then .next s
  else
    let pageIdx := p.oob.idxChunk.toNat
    if s.totalUbootPages = 0 then
      if p.oob.signature ≠ signatureUboot then .next s
      else
        let s' := s.adopt p.oob
        if s'.ubootIdx + 1 = s'.totalUbootCopies ∧ pageIdx + 1 = s'.totalUbootPages then
          .ret (-1, s')
        else copyChunk b s' pageIdx p.data
    -- the table is read before the signature is looked at
    else match s.pageValidTable[pageIdx]? with
      | none => .halt (.tableRead pageIdx)
      | some valid =>
        if valid = 0 then
          if p.oob.signature ≠ signatureUboot then .next s
          else copyChunk b s pageIdx p.data
        else giveUpTest s pageIdx

/-- `ecc_uboot_to_dram` on a flash given by the reads of all its pages in order:
the result and the state it leaves, or an access out of range. -/
def eccUbootToDram (b : Board) (dram : Mem) (flash : List PageRead) : LoaderOutcome :=
  match Scan.run (ubootPass b) (.init b dram) (flash.drop (1 <<< 6)) with
  | .next s => .ret (-3, s)
  | o => o

def LoaderReaches (b : Board) (dram : Mem) (flash : List PageRead) : LoaderState → PageRead → Prop :=
  Scan.Reaches (ubootPass b) (.init b dram) (flash.drop (1 <<< 6))

-- ---------------------------------------------------------------------------
-- What a pass does
-- ---------------------------------------------------------------------------

/-- In state `s`, a page with record `o` that passed the status test is copied:
it has the signature and is the first one found, or its slot is still free. -/
def Takes (s : LoaderState) (o : PlrOob) : Prop :=
  o.signature = signatureUboot ∧
    if s.totalUbootPages = 0 then ¬ o.LastOfAll
    else s.pageValidTable[o.idxChunk.toNat]? = some 0

instance (s : LoaderState) (o : PlrOob) : Decidable (Takes s o) := by
  unfold Takes
  infer_instance

def adopted (s : LoaderState) (o : PlrOob) : LoaderState :=
  if s.totalUbootPages = 0 then s.adopt o else s

theorem ubootPass_of_unreadable (h : p.sts = eccCtrlErr) : ubootPass b s p = .next s := by
  simp [ubootPass, h]

theorem ubootPass_of_takes (hs : p.sts ≠ eccCtrlErr) (ht : Takes s p.oob) :
    ubootPass b s p = copyChunk b (adopted s p.oob) p.oob.idxChunk.toNat p.data := by
  obtain ⟨hsig, hslot⟩ := ht
  unfold ubootPass adopted
  rw [if_neg hs]
  split at hslot
  next h0 =>
    have hlast : ¬ (p.oob.idxCopy.toNat + 1 = p.oob.numCopy.toNat ∧
        p.oob.idxChunk.toNat + 1 = p.oob.totalChunk.toNat) := hslot
    simp [h0, hsig, LoaderState.adopt, hlast]
  next h0 => simp [h0, hsig, hslot]

theorem ubootPass_of_lastOfAll (hs : p.sts ≠ eccCtrlErr) (h0 : s.totalUbootPages = 0)
    (hsig : p.oob.signature = signatureUboot) (hlast : p.oob.LastOfAll) :
    ubootPass b s p = .ret (-1, s.adopt p.oob) := by
  obtain ⟨hcopy, hchunk⟩ := hlast
  simp [ubootPass, hs, h0, hsig, LoaderState.adopt, hcopy, hchunk]

/-- A pass leaves DRAM, the table and the count as they are. Behind an access out of range the
source goes on with what it finds there, so it does not. -/
def LeavesImage (s : LoaderState) : LoaderOutcome → Prop
  | .next s' | .ret (_, s') =>
    s'.dram = s.dram ∧ s'.pageValidTable = s.pageValidTable ∧ s'.cntValidPage = s.cntValidPage
  | .halt _ => False

theorem giveUpTest_leavesImage : LeavesImage s (giveUpTest s i) := by
  unfold giveUpTest
  split <;> exact ⟨rfl, rfl, rfl⟩

theorem ubootPass_of_not_takes (hs : p.sts ≠ eccCtrlErr) (ht : ¬ Takes s p.oob) :
    (∃ i, ubootPass b s p = .halt (.tableRead i)) ∨ LeavesImage s (ubootPass b s p) := by
  unfold ubootPass
  rw [if_neg hs]
  dsimp only
  split
  next h0 =>
    right
    split
    next => exact ⟨rfl, rfl, rfl⟩
    next hsig =>
      have hlast : p.oob.LastOfAll := by
        by_contra hn
        exact ht ⟨by simpa using hsig, by simp [h0, hn]⟩
      rw [if_pos (by simpa [LoaderState.adopt, PlrOob.LastOfAll] using hlast)]
      exact ⟨rfl, rfl, rfl⟩
  next h0 =>
    split
    next => exact .inl ⟨_, rfl⟩
    next valid hv =>
      right
      split
      next hz =>
        split
        next => exact ⟨rfl, rfl, rfl⟩
        next hsig => exact absurd ⟨by simpa using hsig, by simp [h0, hv, hz]⟩ ht
      next => exact giveUpTest_leavesImage

theorem copyChunk_not_leavesImage (hc : s'.cntValidPage = s.cntValidPage) :
    ¬ LeavesImage s (copyChunk b s' i data) := by
  have hstore : (s'.store b i data).cntValidPage ≠ s.cntValidPage := by
    simp [hc]
  unfold copyChunk
  dsimp only
  split
  next => simp [LeavesImage]
  next =>
    split
    next =>
      split
      next => exact fun h => hstore h.2.2
      next =>
        unfold giveUpTest
        split <;> exact fun h => hstore h.2.2
    next => simp [LeavesImage]

theorem adopted_cntValidPage : (adopted s o).cntValidPage = s.cntValidPage := by
  unfold adopted
  split <;> rfl

theorem leavesImage_iff_not_takes (hs : p.sts ≠ eccCtrlErr) (hin : ∀ e, ubootPass b s p ≠ .halt e) :
    LeavesImage s (ubootPass b s p) ↔ ¬ Takes s p.oob := by
  constructor
  · intro h ht
    rw [ubootPass_of_takes hs ht] at h
    exact copyChunk_not_leavesImage adopted_cntValidPage h
  · intro ht
    obtain ⟨i, hi⟩ | h := ubootPass_of_not_takes (b := b) hs ht
    · exact absurd hi (hin _)
    · exact h

end BismarckPreloader.Nand
