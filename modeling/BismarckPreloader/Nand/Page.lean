import BismarckPreloader.Ecc

/-!
# Pages as the boot code reads them

`nsu_page_read_ecc` leaves the decoded page in `page_buffer`, its out-of-band
record in `oob_buffer`, and returns the decoder's status. The preloader map also
looks at the same buffer as a first-load page: two BCH sectors with their own
tags, the first carrying a signature and the second a page index.
-/

namespace BismarckPreloader.Nand

def signaturePlr : UInt32 := 0x30333433

def signaturePlrFl : UInt32 := 0x27317223

def signatureUboot : UInt32 := 0x35323130

/-- The fields of `plr_oob_t` that the boot code reads. -/
structure PlrOob where
  signature : UInt32
  idxCopy : UInt16
  idxChunk : UInt16
  totalChunk : UInt32
  numCopy : UInt32
  deriving DecidableEq, Repr

def PlrOob.LastOfAll (o : PlrOob) : Prop :=
  o.idxCopy.toNat + 1 = o.numCopy.toNat ∧ o.idxChunk.toNat + 1 = o.totalChunk.toNat

instance (o : PlrOob) : Decidable o.LastOfAll :=
  inferInstanceAs (Decidable (_ ∧ _))

/-- One call of `nsu_page_read_ecc`: its result and the buffers it fills. -/
structure PageRead where
  sts : BitVec 32
  oob : PlrOob
  data : Nat → UInt8

/-- The same buffer seen through `plr_first_load_layout_t`: the engine's result
on either sector, and the two header fields the boot code reads. -/
structure FirstLoad where
  sector0 : EccSts
  sector1 : EccSts
  signature : UInt32
  pageIndex : UInt16
  deriving DecidableEq, Repr

structure PlrPageRead extends PageRead where
  fl : FirstLoad

def isPlrFirstLoadPart (fl : FirstLoad) : BitVec 32 :=
  if checkEccCtrlStatus fl.sector0 = eccCtrlErr then eccCtrlErr
  else if checkEccCtrlStatus fl.sector1 = eccCtrlErr then eccCtrlErr
  else if fl.signature = signaturePlrFl then 1#32
  else 0#32

theorem isPlrFirstLoadPart_eq_one (fl : FirstLoad) :
    isPlrFirstLoadPart fl = 1#32 ↔ ¬ fl.sector0.Uncorrectable ∧ ¬ fl.sector1.Uncorrectable ∧
      fl.signature = signaturePlrFl := by
  unfold isPlrFirstLoadPart
  simp only [checkEccCtrlStatus_eq_err]
  have herr : eccCtrlErr ≠ 1#32 := by decide
  split
  next h => simp [h, herr]
  next h₀ =>
    split
    next h => simp [h, herr]
    next h₁ => split <;> simp_all

/-- A chip's page as the decoder sees it: the engine's result on each sector,
and what the buffers hold after decoding. -/
structure RawPage where
  sectors : List EccSts
  oob : PlrOob
  data : Nat → UInt8

def RawPage.Uncorrectable (p : RawPage) : Prop := ∃ r ∈ p.sectors, r.Uncorrectable

/-- `snaf_page_read_with_ecc_decode`. -/
def RawPage.read (p : RawPage) : PageRead := ⟨eccDecodeBchSector p.sectors, p.oob, p.data⟩

/-- What a project and its flash chip fix for the boot code. Supported chips
have pages of 2048 or 4096 bytes. -/
structure Board where
  pageSize : Nat
  maxUbootSize : Nat
  eccDecodedUbootAddr : Nat
  plrMapTableSize : Nat
  supported : pageSize = 2048 ∨ pageSize = 4096

def Board.sectorPerPage (b : Board) : Nat := b.pageSize / 512

theorem Board.sectorPerPage_le (b : Board) : b.sectorPerPage ≤ 8 := by
  unfold Board.sectorPerPage
  rcases b.supported with h | h <;> rw [h]
  decide

theorem Board.pageSize_pos (b : Board) : 0 < b.pageSize := by
  rcases b.supported with h | h <;> omega

theorem supported_2048 : 2048 = 2048 ∨ 2048 = 4096 := .inl rfl

def board9603cvd : Board where
  pageSize := 2048
  maxUbootSize := 0x33000
  eccDecodedUbootAddr := 0x80700000
  plrMapTableSize := 68
  supported := supported_2048

end BismarckPreloader.Nand
