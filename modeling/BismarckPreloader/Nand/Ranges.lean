import BismarckPreloader.Nand.UbootLoader
import BismarckPreloader.Nand.PageMap

/-!
# Table indices taken from flash

Both boot loops index a table with a field of the page they just read. Neither
compares the field with the table's size, so the accesses stay in range exactly
when the flash keeps them there. `inRange_iff` says this page by page, for the
pages that the loops get to and the states they are in by then. A page that
cannot be corrected has a field like any other, and `keepsUncorrectableOut_iff`
says for which flashes the loader takes none of them.
-/

namespace BismarckPreloader.Nand

-- ---------------------------------------------------------------------------
-- The U-Boot loader
-- ---------------------------------------------------------------------------

def UsesIndex (s : LoaderState) (p : PageRead) : Prop :=
  p.sts ≠ eccCtrlErr ∧
    (s.totalUbootPages = 0 → p.oob.signature = signatureUboot ∧ ¬ p.oob.LastOfAll)

theorem giveUpTest_ne_halt : giveUpTest s i ≠ .halt e := by
  unfold giveUpTest
  split <;> simp

/-- The image area has room for chunk `i` exactly if the table has a slot for it. -/
theorem Board.window_iff (b : Board) (i : Nat) :
    b.maxUbootSize < b.pageSize * i + b.pageSize ↔ b.maxUbootSize / b.pageSize ≤ i := by
  have h := Nat.le_div_iff_mul_le (x := i + 1) (y := b.maxUbootSize) b.pageSize_pos
  rw [Nat.add_mul, Nat.one_mul, Nat.mul_comm] at h
  omega

theorem copyChunk_halt_iff (hl : s.pageValidTable.length = b.maxUbootSize / b.pageSize) :
    (∃ e, copyChunk b s i data = .halt e) ↔ b.maxUbootSize / b.pageSize ≤ i := by
  have hw := b.window_iff i
  unfold copyChunk
  split
  next h => exact iff_of_true ⟨_, rfl⟩ (hw.mp h)
  next h =>
    have hi : ¬ b.maxUbootSize / b.pageSize ≤ i := fun hi => h (hw.mpr hi)
    rw [if_pos (by omega)]
    dsimp only
    split
    · simp [hi]
    · simp [giveUpTest_ne_halt, hi]

theorem ubootPass_halt_iff (hl : s.pageValidTable.length = b.maxUbootSize / b.pageSize) :
    (∃ e, ubootPass b s p = .halt e) ↔
      UsesIndex s p ∧ b.maxUbootSize / b.pageSize ≤ p.oob.idxChunk.toNat := by
  by_cases hs : p.sts = eccCtrlErr
  · simp [ubootPass_of_unreadable hs, UsesIndex, hs]
  by_cases h0 : s.totalUbootPages = 0
  · by_cases hu : p.oob.signature = signatureUboot ∧ ¬ p.oob.LastOfAll
    · have ht : Takes s p.oob := ⟨hu.1, by simpa [h0] using hu.2⟩
      rw [ubootPass_of_takes hs ht, adopted, if_pos h0,
        copyChunk_halt_iff (s := s.adopt p.oob) hl]
      simp [UsesIndex, hs, hu]
    · have hne : ∀ e, ubootPass b s p ≠ .halt e := by
        intro e
        by_cases hsig : p.oob.signature = signatureUboot
        · have hlast : p.oob.LastOfAll := by simpa [hsig] using hu
          simp [ubootPass_of_lastOfAll hs h0 hsig hlast]
        · simp [ubootPass, hs, h0, hsig]
      simp [hne, UsesIndex, h0, hu]
  · have hu : UsesIndex s p := ⟨hs, fun h => absurd h h0⟩
    simp only [hu, true_and, ← hl]
    cases hv : s.pageValidTable[p.oob.idxChunk.toNat]? with
    | none => simp [ubootPass, hs, h0, List.getElem?_eq_none_iff.mp hv]
    | some valid =>
      have hlt := (List.getElem?_eq_some_iff.mp hv).1
      refine iff_of_false ?_ (by omega)
      simp only [ubootPass, hs, h0, hv, if_false]
      split
      · split
        · simp
        · rw [copyChunk_halt_iff hl]
          omega
      · simp [giveUpTest_ne_halt]

theorem copyChunk_next (h : copyChunk b s i data = .next s') : s' = s.store b i data := by
  unfold copyChunk at h
  split at h
  next => cases h
  next =>
    split at h
    next =>
      dsimp only at h
      split at h
      next => cases h
      next =>
        unfold giveUpTest at h
        split at h
        next => cases h
        next => exact (Outcome.next.inj h).symm
    next => cases h

theorem ubootPass_length (h : ubootPass b s p = .next s') :
    s'.pageValidTable.length = s.pageValidTable.length := by
  by_cases hs : p.sts = eccCtrlErr
  · rw [ubootPass_of_unreadable hs] at h
    cases h
    rfl
  by_cases ht : Takes s p.oob
  · rw [ubootPass_of_takes hs ht] at h
    rw [copyChunk_next h, LoaderState.store_pageValidTable, List.length_set]
    unfold adopted
    split <;> rfl
  · obtain ⟨i, hi⟩ | hl := ubootPass_of_not_takes (b := b) hs ht
    · rw [hi] at h
      cases h
    · rw [h] at hl
      rw [hl.2.1]

theorem loader_length (h : LoaderReaches b dram flash s p) :
    s.pageValidTable.length = b.maxUbootSize / b.pageSize := by
  refine Scan.reaches_inv (fun s => s.pageValidTable.length = b.maxUbootSize / b.pageSize)
    (by simp [LoaderState.init]) ?_ h
  intro s x s' _ hs hx
  rw [ubootPass_length hx, hs]

theorem eccUbootToDram_halt_iff : eccUbootToDram b dram flash = .halt e ↔
    ∃ s p, LoaderReaches b dram flash s p ∧ ubootPass b s p = .halt e := by
  rw [LoaderReaches, ← Scan.run_eq_iff rfl]
  unfold eccUbootToDram
  split <;> simp_all

theorem eccUbootToDram_ne_halt_iff :
    (∀ e, eccUbootToDram b dram flash ≠ .halt e) ↔
      ∀ s p, LoaderReaches b dram flash s p → UsesIndex s p →
        p.oob.idxChunk.toNat < b.maxUbootSize / b.pageSize := by
  constructor
  · intro h s p hr hu
    by_contra hn
    obtain ⟨e, he⟩ := (ubootPass_halt_iff (loader_length hr)).mpr ⟨hu, by omega⟩
    exact h e (eccUbootToDram_halt_iff.mpr ⟨s, p, hr, he⟩)
  · intro h e he
    obtain ⟨s, p, hr, hx⟩ := eccUbootToDram_halt_iff.mp he
    obtain ⟨hu, hge⟩ := (ubootPass_halt_iff (loader_length hr)).mp ⟨e, hx⟩
    exact absurd (h s p hr hu) (by omega)

-- ---------------------------------------------------------------------------
-- Pages that failed to decode
-- ---------------------------------------------------------------------------

structure RawFlash (b : Board) where
  pages : List RawPage
  sized : ∀ p ∈ pages, p.sectors.length = b.sectorPerPage

namespace RawFlash

variable {b : Board}

def reads (f : RawFlash b) : List PageRead := f.pages.map RawPage.read

def Reaches (f : RawFlash b) (dram : Mem) : LoaderState → RawPage → Prop :=
  Scan.Reaches (fun s p => ubootPass b s p.read) (.init b dram) (f.pages.drop (1 <<< 6))

/-- No page with an uncorrectable sector is copied, marked valid or counted. After an access
out of range nothing is known of the table, so there must be none. -/
def KeepsUncorrectableOut (f : RawFlash b) (dram : Mem) : Prop :=
  (∀ e, eccUbootToDram b dram f.reads ≠ .halt e) ∧
    ∀ s p, f.Reaches dram s p → p.Uncorrectable → LeavesImage s (ubootPass b s p.read)

theorem Reaches.loaderReaches {f : RawFlash b} (h : f.Reaches dram s p) :
    LoaderReaches b dram f.reads s p.read := by
  obtain ⟨before, after, he, hr⟩ := h
  refine ⟨before.map RawPage.read, after.map RawPage.read, ?_, ?_⟩
  · rw [reads, ← List.map_drop, he, List.map_append, List.map_cons]
  · rw [Scan.run_map, hr]

theorem Reaches.sts_ne {f : RawFlash b} (h : f.Reaches dram s p) : p.read.sts ≠ eccCtrlErr := by
  have hlen := f.sized p (List.mem_of_mem_drop h.mem)
  exact eccDecodeBchSector_ne_eccCtrlErr p.sectors (hlen ▸ b.sectorPerPage_le)

/-- The decoder never returns the one value the loader skips, so what keeps a
damaged page out of the image is only that it would not be taken anyway. -/
theorem keepsUncorrectableOut_iff (f : RawFlash b) (dram : Mem) :
    f.KeepsUncorrectableOut dram ↔
      (∀ s p, LoaderReaches b dram f.reads s p → UsesIndex s p →
        p.oob.idxChunk.toNat < b.maxUbootSize / b.pageSize) ∧
      ∀ s p, f.Reaches dram s p → p.Uncorrectable → p.oob.signature = signatureUboot →
        if s.totalUbootPages = 0 then p.oob.LastOfAll
        else s.pageValidTable[p.oob.idxChunk.toNat]? ≠ some 0 := by
  have hnot : ∀ s o, ¬ Takes s o ↔ (o.signature = signatureUboot →
      if s.totalUbootPages = 0 then o.LastOfAll
      else s.pageValidTable[o.idxChunk.toNat]? ≠ some 0) := by
    intro s o
    unfold Takes
    split <;> simp
  rw [KeepsUncorrectableOut, ← eccUbootToDram_ne_halt_iff]
  refine and_congr_right fun hin => forall₂_congr fun s p => forall₂_congr fun hr _ => ?_
  have hpass : ∀ e, ubootPass b s p.read ≠ .halt e := fun e he =>
    hin e (eccUbootToDram_halt_iff.mpr ⟨s, p.read, hr.loaderReaches, he⟩)
  exact (leavesImage_iff_not_takes hr.sts_ne hpass).trans (hnot s p.oob)

end RawFlash

def erasedRawPage : RawPage where
  sectors := List.replicate 4 ⟨true, true, 0⟩
  oob := ⟨0xFFFFFFFF, 0xFFFF, 0xFFFF, 0xFFFFFFFF, 0xFFFFFFFF⟩
  data := fun _ => 0xFF

def wornRawPage : RawPage where
  sectors := [⟨false, false, 0⟩, ⟨false, false, 2⟩, ⟨true, false, 0⟩, ⟨false, false, 0⟩]
  oob := ⟨signatureUboot, 0, 0, 2, 2⟩
  data := fun _ => 0

def wornRawFlash : RawFlash board9603cvd where
  pages := List.replicate 64 erasedRawPage ++ [wornRawPage]
  sized := by decide

theorem wornRawFlash_loads_uncorrectable : ¬ wornRawFlash.KeepsUncorrectableOut (fun _ => 0) := by
  intro h
  have hr : wornRawFlash.Reaches (fun _ => 0) (.init board9603cvd fun _ => 0) wornRawPage :=
    ⟨[], [], rfl, rfl⟩
  have hu : wornRawPage.Uncorrectable := ⟨⟨true, false, 0⟩, by decide, by decide⟩
  have ht : Takes (.init board9603cvd fun _ => 0) wornRawPage.oob := by decide
  have hleft := h.2 _ _ hr hu
  rw [ubootPass_of_takes hr.sts_ne ht] at hleft
  exact copyChunk_not_leavesImage adopted_cntValidPage hleft

def InRange (b : Board) (dram : Mem) (flash : List PlrPageRead) : Prop :=
  (∀ e, eccUbootToDram b dram (flash.map PlrPageRead.toPageRead) ≠ .halt e) ∧
    ∀ e, nsuInit b flash ≠ .halt e

theorem inRange_iff (b : Board) (dram : Mem) (flash : List PlrPageRead) :
    InRange b dram flash ↔
      (∀ s p, LoaderReaches b dram (flash.map PlrPageRead.toPageRead) s p → UsesIndex s p →
        p.oob.idxChunk.toNat < b.maxUbootSize / b.pageSize) ∧
      ∀ s x, MapReaches b flash s x → ∀ i, x.1.slot? = some i → i < b.plrMapTableSize := by
  rw [InRange, eccUbootToDram_ne_halt_iff, nsuInit_ne_halt_iff]

def wildPage (signature : UInt32) : PlrPageRead where
  sts := 0
  oob := ⟨signature, 0, 0xFFFF, 2, 2⟩
  data := fun _ => 0
  fl := ⟨⟨true, false, 0⟩, ⟨true, false, 0⟩, 0, 0⟩

def wildFlash : List PlrPageRead :=
  List.replicate 64 (wildPage signaturePlr) ++ [wildPage signatureUboot]

theorem wildFlash_out_of_range :
    eccUbootToDram board9603cvd (fun _ => 0) (wildFlash.map PlrPageRead.toPageRead) =
        .halt (.dramWrite (0x80700000 + 2048 * 0xFFFF)) ∧
      nsuInit board9603cvd wildFlash = .halt ⟨0xFFFF⟩ ∧
      ¬ InRange board9603cvd (fun _ => 0) wildFlash := by
  have hload : eccUbootToDram board9603cvd (fun _ => 0) (wildFlash.map PlrPageRead.toPageRead) =
      .halt (.dramWrite (0x80700000 + 2048 * 0xFFFF)) := rfl
  have hmap : nsuInit board9603cvd wildFlash = .halt ⟨0xFFFF⟩ := by decide
  exact ⟨hload, hmap, fun h => h.2 _ hmap⟩

end BismarckPreloader.Nand
