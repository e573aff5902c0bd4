import BismarckPreloader.Bchenc.Preloader
import BismarckPreloader.Nand.UbootLoader

/-!
# U-Boot in an image of `bchenc`, and the loader

`write_out_uboot` writes the copies of a U-Boot file as pages, with a header in front of
the file unless it is told not to. The number of chunks in the records is computed from the
length of the file alone. `loads_iff` composes it with `ecc_uboot_to_dram` on a flash
without errors and says when the header and the whole file arrive in DRAM.

The file is the one that is written, after `-uboot_lzma`.
-/

namespace BismarckPreloader.Bchenc

open Nand

def minusOne : UInt32 := 0xFFFFFFFF

structure UbootOptions where
  pageSize : Nat
  supported : pageSize = 2048 ∨ pageSize = 4096
  pagePerBlock : Nat
  numUboot : UInt32
  ubootFrom : UInt32
  ubootCont : Bool
  ubootUseHdr : Bool
  ubootMagic : UInt32
  ubootImageSize : UInt32
  ubootLoadAddr : UInt32
  ubootEntryAddr : UInt32
  ubootCompType : UInt8

inductive UbootError where
  | belowPreloader
  | endless
  deriving DecidableEq, Repr

/-- `uimage_header_t` on ones. -/
def uimageHeader (o : UbootOptions) (file : List UInt8) : List UInt8 :=
  let size := if o.ubootImageSize = 0 then UInt32.ofNat file.length else o.ubootImageSize
  wordBytes o.ubootMagic ++ ones 8 ++ wordBytes size ++ wordBytes o.ubootLoadAddr ++
    wordBytes o.ubootEntryAddr ++ ones 7 ++ [o.ubootCompType] ++ ones 32

def hdrSize : Nat := 64

/-- The blank pages in front of `uboot_from`, when `written` pages are there. The counter of
pages has 32 bits and cannot get to a later block. -/
def skipBlocks (o : UbootOptions) (written : Nat) : Except UbootError (List Written) :=
  if o.ubootFrom = minusOne then .ok []
  else if o.ubootFrom.toNat < (written + o.pagePerBlock - 1) / o.pagePerBlock then
    .error .belowPreloader
  else if (2 ^ 32 - 1) / o.pagePerBlock < o.ubootFrom.toNat then .error .endless
  else .ok (List.replicate (o.ubootFrom.toNat * o.pagePerBlock - written) .blank)

def ubootSpare (o : UbootOptions) (file : List UInt8) (chunkNum : UInt32) : Spare where
  bbi := 0xFFFF
  reserved := 0xFFFF
  signature := signatureUboot
  chunkNum := chunkNum
  startupNum := minusOne
  totalChunk := roundToPage o.pageSize (UInt32.ofNat file.length)
  numCopy := o.numUboot

def ubootPieces (o : UbootOptions) (file : List UInt8) : List (List UInt8) :=
  if o.ubootUseHdr then
    let rest := pieces o.pageSize (file.drop (o.pageSize - hdrSize))
    if file = [] then rest else (uimageHeader o file ++ file.take (o.pageSize - hdrSize)) :: rest
  else pieces o.pageSize file

def ubootCopy (o : UbootOptions) (file : List UInt8) (r : Nat) : List Written :=
  (ubootPieces o file).zipIdx.map fun (data, j) =>
    .chunk ⟨ubootSpare o file ((UInt32.ofNat r <<< 16) + UInt32.ofNat j), onOnes data⟩

def ubootCopies (o : UbootOptions) (file : List UInt8) : Nat → Nat → Nat → List Written
  | 0, _, _ => []
  | count + 1, r, written =>
    let copy := ubootCopy o file r
    let pages := if o.ubootCont then copy
      else copy ++ blockPadding o.pagePerBlock (written + copy.length)
    pages ++ ubootCopies o file count (r + 1) (written + pages.length)

/-- `write_out_uboot`: the pages it appends to `written` pages. -/
def writeOutUboot (o : UbootOptions) (written : Nat) (file : List UInt8) :
    Except UbootError (List Written) := do
  let skipped ← skipBlocks o written
  pure (skipped ++ ubootCopies o file o.numUboot.toNat 0 (written + skipped.length))

def ubootImage (o : UbootOptions) (file : List UInt8) : List UInt8 :=
  if o.ubootUseHdr then uimageHeader o file ++ file else file

/-- An image of `bchenc` for a board of the repository: pages without the signature of
U-Boot, such as those of the preloader, and then U-Boot from the start of a block on. -/
structure UbootOnFlash where
  board : Board
  options : UbootOptions
  file : List UInt8
  before : List Written
  pages : List Written
  board_pageSize : board.pageSize = options.pageSize
  board_max : board.maxUbootSize = 0x33000 ∨ board.maxUbootSize = 0x80000
  pagePerBlock : options.pagePerBlock = 64
  file_ne : file ≠ []
  numUboot_ne : options.numUboot ≠ 0
  ubootFrom_ne : options.ubootFrom ≠ 0
  ubootFrom_given : options.ubootFrom ≠ minusOne
  fits : (ubootImage options file).length ≤ board.maxUbootSize
  foreign : ∀ p, .chunk p ∈ before → p.spare.signature ≠ signatureUboot
  written : writeOutUboot options before.length file = .ok pages

namespace UbootOnFlash

variable (U : UbootOnFlash) (chip : Chip)

def image : List UInt8 := ubootImage U.options U.file

def flash (rest : Nat) : List PageRead :=
  (U.before ++ U.pages ++ List.replicate rest Written.blank).map
    fun w => (chip.read U.board.sectorPerPage w).toPageRead

def Loads (rest : Nat) : Prop :=
  ∀ dram, ∃ (count : Int) (s : LoaderState),
    eccUbootToDram U.board dram (U.flash chip rest) = .ret (count, s) ∧ 0 < count ∧
      ∀ k (hk : k < U.image.length), s.dram (U.board.eccDecodedUbootAddr + k) = U.image[k]

def pageCount (n : Nat) : Nat := (n + U.board.pageSize - 1) / U.board.pageSize

def total : Nat := U.pageCount U.file.length

/-- The header does not need a page more than the file alone, and there is more than one
page of U-Boot. -/
def Counted : Prop :=
  U.pageCount U.image.length = U.pageCount U.file.length ∧
    ¬(U.pageCount U.file.length = 1 ∧ U.options.numUboot = 1)

end UbootOnFlash

-- ---------------------------------------------------------------------------
-- The pages of a copy
-- ---------------------------------------------------------------------------

theorem length_uimageHeader (o : UbootOptions) (file : List UInt8) :
    (uimageHeader o file).length = hdrSize := by
  simp only [uimageHeader, List.length_append, length_wordBytes, length_ones, List.length_singleton]
  rfl

theorem ubootPieces_eq (o : UbootOptions) (h : file ≠ []) :
    ubootPieces o file = pieces o.pageSize (ubootImage o file) := by
  unfold ubootPieces ubootImage
  split
  next =>
    have hps : hdrSize ≤ o.pageSize ∧ 0 < o.pageSize := by
      rcases o.supported with hs | hs <;> rw [hs, hdrSize] <;> decide
    have hne : uimageHeader o file ++ file ≠ [] := by simp [h]
    dsimp only
    have hlen : (uimageHeader o file).length ≤ o.pageSize := (length_uimageHeader o file).trans_le hps.1
    rw [pieces_of_ne_nil hps.2 hne, List.take_append, List.drop_append,
      List.take_of_length_le hlen, List.drop_of_length_le hlen, List.nil_append,
      length_uimageHeader]
  next => rfl

namespace UbootOnFlash

variable {U : UbootOnFlash} {chip : Chip}

theorem file_length_le (U : UbootOnFlash) : U.file.length ≤ U.image.length := by
  unfold image ubootImage
  split
  · simp
  · exact le_rfl

theorem pageCount_mono (U : UbootOnFlash) (h : a ≤ b) : U.pageCount a ≤ U.pageCount b :=
  Nat.div_le_div_right (by omega)

theorem le_pageCount (U : UbootOnFlash) (n : Nat) : n ≤ U.pageCount n * U.board.pageSize := by
  rw [pageCount]
  rcases U.board.supported with hs | hs <;> rw [hs] <;> omega

theorem pageCount_pos (U : UbootOnFlash) (h : 0 < n) : 0 < U.pageCount n := by
  rw [pageCount]
  rcases U.board.supported with hs | hs <;> rw [hs] <;> omega

theorem pageCount_fits (U : UbootOnFlash) :
    U.pageCount U.image.length * U.board.pageSize ≤ U.board.maxUbootSize := by
  have hfits : U.image.length ≤ U.board.maxUbootSize := U.fits
  rw [pageCount]
  rcases U.board.supported with hs | hs <;> rcases U.board_max with hm | hm <;>
    rw [hm] at hfits <;> rw [hs, hm] <;> omega

theorem pageCount_lt (U : UbootOnFlash) : U.pageCount U.image.length < 2 ^ 16 := by
  have hfits := U.pageCount_fits
  rcases U.board.supported with hs | hs <;> rcases U.board_max with hm | hm <;>
    rw [hs, hm] at hfits <;> omega

theorem total_le (U : UbootOnFlash) : U.total ≤ U.pageCount U.image.length :=
  U.pageCount_mono U.file_length_le

theorem total_pos (U : UbootOnFlash) : 0 < U.total :=
  U.pageCount_pos (List.length_pos_of_ne_nil U.file_ne)

def page (U : UbootOnFlash) (j : Nat) : DataPage where
  spare := ubootSpare U.options U.file ((UInt32.ofNat 0 <<< 16) + UInt32.ofNat j)
  data := onOnes ((U.image.drop (j * U.board.pageSize)).take U.board.pageSize)

theorem getElem?_copy (U : UbootOnFlash) (h : j < U.pageCount U.image.length) :
    (ubootCopy U.options U.file 0)[j]? = some (.chunk (U.page j)) := by
  have hpieces : ubootPieces U.options U.file = pieces U.board.pageSize U.image := by
    rw [ubootPieces_eq _ U.file_ne, U.board_pageSize]
    rfl
  rw [ubootCopy, hpieces, List.getElem?_map, List.getElem?_zipIdx, getElem?_pieces h,
    Option.map_some, Option.map_some, Nat.zero_add]
  rfl

theorem page_oob (U : UbootOnFlash) (h : j < U.pageCount U.image.length) :
    (U.page j).spare.oob.signature = signatureUboot ∧
      (U.page j).spare.oob.idxChunk.toNat = j ∧ (U.page j).spare.oob.idxCopy.toNat = 0 ∧
      (U.page j).spare.oob.totalChunk.toNat = U.total ∧
      (U.page j).spare.oob.numCopy = U.options.numUboot := by
  have hlt := U.pageCount_lt
  have hnum : ((UInt32.ofNat 0 <<< 16) + UInt32.ofNat j : UInt32).toNat = j := by
    have hzero : (UInt32.ofNat 0 <<< 16 : UInt32) = 0 := rfl
    rw [hzero, UInt32.zero_add, UInt32.toNat_ofNat', Nat.mod_eq_of_lt (by omega)]
  refine ⟨rfl, ?_, ?_, ?_, rfl⟩
  · rw [page, Spare.oob, ubootSpare, hnum, UInt16.toNat_ofNat', Nat.mod_eq_of_lt (by omega)]
  · rw [page, Spare.oob, ubootSpare, hnum, UInt16.toNat_ofNat']
    omega
  · have hfits : U.image.length ≤ U.board.maxUbootSize := U.fits
    have hle := U.file_length_le
    have hlen : U.file.length < 2 ^ 31 := by
      rcases U.board_max with hm | hm <;> rw [hm] at hfits <;> omega
    have hps : (UInt32.ofNat U.options.pageSize).toNat = U.options.pageSize := by
      rw [UInt32.toNat_ofNat']
      rcases U.options.supported with hs | hs <;> rw [hs]
    rw [page, Spare.oob, ubootSpare, roundToPage, UInt32.toNat_div, UInt32.toNat_sub,
      UInt32.toNat_add, hps, UInt32.toNat_ofNat', total, pageCount, U.board_pageSize]
    congr 1
    change (2 ^ 32 - 1 + (U.file.length % 2 ^ 32 + U.options.pageSize) % 2 ^ 32) % 2 ^ 32 = _
    rcases U.options.supported with hs | hs <;> rw [hs] <;> omega

theorem pages_eq (U : UbootOnFlash) :
    ∃ n more, U.before.length + n = U.options.ubootFrom.toNat * 64 ∧
      U.pages = List.replicate n .blank ++ (ubootCopy U.options U.file 0 ++ more) := by
  obtain ⟨skipped, hskip, hpages⟩ := bind_ok.mp U.written
  obtain ⟨c, hc⟩ : ∃ c, U.options.numUboot.toNat = c + 1 :=
    Nat.exists_eq_succ_of_ne_zero fun h0 => U.numUboot_ne (UInt32.toNat_inj.mp h0)
  obtain ⟨more, hmore⟩ : ∃ more, ubootCopies U.options U.file U.options.numUboot.toNat 0
      (U.before.length + skipped.length) = ubootCopy U.options U.file 0 ++ more := by
    rw [hc, ubootCopies]
    split
    · exact ⟨_, rfl⟩
    · rw [List.append_assoc]
      exact ⟨_, rfl⟩
  rw [skipBlocks, if_neg U.ubootFrom_given, U.pagePerBlock] at hskip
  split at hskip
  next => cases hskip
  next hle =>
    split at hskip
    next => cases hskip
    next =>
      refine ⟨U.options.ubootFrom.toNat * 64 - U.before.length, more, by omega, ?_⟩
      rw [← Except.ok.inj hpages, hmore, ← Except.ok.inj hskip]

variable (U chip) in
def read (w : Written) : PageRead := (chip.read U.board.sectorPerPage w).toPageRead

theorem flash_drop (U : UbootOnFlash) (chip : Chip) (rest : Nat) :
    ∃ (front : List Written) (more : List PageRead),
      (∀ p, .chunk p ∈ front → p.spare.signature ≠ signatureUboot) ∧
      (U.flash chip rest).drop (1 <<< 6) = front.map (U.read chip) ++
        ((ubootCopy U.options U.file 0).map (U.read chip) ++ more) := by
  obtain ⟨n, more, hn, hpages⟩ := U.pages_eq
  have hfrom : 1 ≤ U.options.ubootFrom.toNat :=
    Nat.one_le_iff_ne_zero.mpr fun h0 => U.ubootFrom_ne (UInt32.toNat_inj.mp h0)
  refine ⟨(U.before ++ List.replicate n Written.blank).drop 64,
    (more ++ List.replicate rest Written.blank).map (U.read chip), ?_, ?_⟩
  · intro p hp
    rcases List.mem_append.mp (List.mem_of_mem_drop hp) with hp | hp
    · exact U.foreign p hp
    · cases List.eq_of_mem_replicate hp
  · have hlen : 64 ≤ (U.before ++ List.replicate n Written.blank).length := by
      rw [List.length_append, List.length_replicate, hn]
      omega
    change ((U.before ++ U.pages ++ List.replicate rest Written.blank).map (U.read chip)).drop 64 = _
    rw [← List.map_append, ← List.map_append, ← List.map_drop, hpages, ← List.append_assoc,
      List.append_assoc (U.before ++ _), List.append_assoc (ubootCopy _ _ _),
      List.drop_append_of_le_length hlen]

-- ---------------------------------------------------------------------------
-- The loader
-- ---------------------------------------------------------------------------

theorem signature_of_front {front : List Written}
    (h : ∀ p, .chunk p ∈ front → p.spare.signature ≠ signatureUboot) (hw : w ∈ front) :
    (U.read chip w).oob.signature ≠ signatureUboot := by
  cases w with
  | firstLoad p =>
    change onesOob.signature ≠ signatureUboot
    decide
  | chunk p => exact h p hw
  | blank =>
    change onesOob.signature ≠ signatureUboot
    decide

theorem run_front {ps : List PageRead} (h0 : s.totalUbootPages = 0)
    (h : ∀ p ∈ ps, p.oob.signature ≠ signatureUboot) :
    Scan.run (ubootPass b) s ps = .next s := by
  induction ps with
  | nil => rfl
  | cons p ps ih =>
    have hpass : ubootPass b s p = .next s := by
      rw [ubootPass]
      split
      · rfl
      · exact if_pos (h p List.mem_cons_self)
    rw [Scan.run_cons_next hpass, ih fun q hq => h q (List.mem_cons_of_mem p hq)]

variable (U) in
structure Loading (dram : Mem) (i : Nat) (s : LoaderState) : Prop where
  pages : s.totalUbootPages = if i = 0 then 0 else U.total
  copies : i ≠ 0 → s.totalUbootCopies = U.options.numUboot.toNat ∧ s.ubootIdx = 0
  count : s.cntValidPage = i
  length : s.pageValidTable.length = U.board.maxUbootSize / U.board.pageSize
  free : ∀ j, i ≤ j → j < s.pageValidTable.length → s.pageValidTable[j]? = some 0
  loaded : ∀ j < i, ∀ k < U.board.pageSize,
    s.dram (U.board.eccDecodedUbootAddr + U.board.pageSize * j + k) = (U.page j).data k
  beyond : ∀ a, U.board.eccDecodedUbootAddr + U.board.pageSize * i ≤ a → s.dram a = dram a

theorem loading_init (U : UbootOnFlash) (dram : Mem) : U.Loading dram 0 (.init U.board dram) where
  pages := rfl
  copies h := absurd rfl h
  count := rfl
  length := List.length_replicate
  free j _ hj := by
    rw [LoaderState.init, List.length_replicate] at hj
    rw [LoaderState.init, List.getElem?_replicate, if_pos hj]
  loaded j hj := absurd hj (Nat.not_lt_zero j)
  beyond _ _ := rfl

theorem total_le_table (U : UbootOnFlash) : U.total ≤ U.board.maxUbootSize / U.board.pageSize :=
  (Nat.le_div_iff_mul_le U.board.pageSize_pos).mpr
    ((Nat.mul_le_mul_right _ U.total_le).trans U.pageCount_fits)

theorem Loading.store (h : U.Loading dram i s) (hi : i < U.total) :
    U.Loading dram (i + 1)
      ((adopted s (U.page i).spare.oob).store U.board i (U.page i).data) := by
  obtain ⟨-, -, hcopy, htotal, hnum⟩ := U.page_oob (lt_of_lt_of_le hi U.total_le)
  have hfields : (adopted s (U.page i).spare.oob).totalUbootPages = U.total ∧
      (adopted s (U.page i).spare.oob).totalUbootCopies = U.options.numUboot.toNat ∧
      (adopted s (U.page i).spare.oob).ubootIdx = 0 ∧
      (adopted s (U.page i).spare.oob).pageValidTable = s.pageValidTable ∧
      (adopted s (U.page i).spare.oob).dram = s.dram := by
    have hpages := h.pages
    unfold adopted
    split
    next h0 => exact ⟨htotal, congrArg UInt32.toNat hnum, hcopy, rfl, rfl⟩
    next h0 =>
      have hne : i ≠ 0 := fun he => h0 (by rw [hpages, if_pos he])
      rw [if_neg hne] at hpages
      exact ⟨hpages, (h.copies hne).1, (h.copies hne).2, rfl, rfl⟩
  obtain ⟨hpages, hcopies, hidx, htable, hdram⟩ := hfields
  refine ⟨?_, fun _ => ⟨hcopies, hidx⟩, ?_, ?_, ?_, ?_, ?_⟩
  · rw [LoaderState.store_totalUbootPages, hpages, if_neg (Nat.succ_ne_zero i)]
  · rw [LoaderState.store_cntValidPage, adopted_cntValidPage, h.count]
  · rw [LoaderState.store_pageValidTable, List.length_set, htable, h.length]
  · intro j hj hlt
    rw [LoaderState.store_pageValidTable, List.length_set, htable] at hlt
    rw [LoaderState.store_pageValidTable, htable, List.getElem?_set_ne (by omega)]
    exact h.free j (by omega) hlt
  · intro j hj k hk
    rw [LoaderState.store_dram, hdram]
    by_cases hji : j = i
    · rw [hji]
      exact Mem.copy_inside _ _ hk
    · rw [Mem.copy_other_slot _ _ (Ne.symm hji) hk]
      exact h.loaded j (by omega) k hk
  · intro a ha
    rw [Nat.mul_succ] at ha
    rw [LoaderState.store_dram, hdram, Mem.copy_outside _ _ (.inr (by omega))]
    exact h.beyond a (by omega)

theorem read_sts (j : Nat) : (U.read chip (.chunk (U.page j))).sts ≠ eccCtrlErr := by
  refine eccDecodeBchSector_ne_eccCtrlErr _ ?_
  rw [List.length_replicate]
  exact U.board.sectorPerPage_le

theorem lastOfAll_iff (U : UbootOnFlash) (hi : i < U.total) :
    (U.page i).spare.oob.LastOfAll ↔ U.options.numUboot = 1 ∧ i + 1 = U.total := by
  obtain ⟨-, hidx, hcopy, htotal, hnum⟩ := U.page_oob (lt_of_lt_of_le hi U.total_le)
  rw [PlrOob.LastOfAll, hidx, hcopy, htotal, hnum, ← UInt32.toNat_inj, eq_comm]
  rfl

/-- A pass on chunk `i`, unless it is the only page of U-Boot. -/
theorem Loading.pass (h : U.Loading dram i s) (hi : i < U.total)
    (hmore : ¬(U.total = 1 ∧ U.options.numUboot = 1)) :
    ∃ s', U.Loading dram (i + 1) s' ∧ ubootPass U.board s (U.read chip (.chunk (U.page i))) =
      if i + 1 = U.total then .ret (U.total, s') else .next s' := by
  obtain ⟨hsig, hidx, -, -, -⟩ := U.page_oob (lt_of_lt_of_le hi U.total_le)
  have htable : i < s.pageValidTable.length := by
    rw [h.length]
    exact lt_of_lt_of_le hi U.total_le_table
  have htakes : Takes s (U.page i).spare.oob := by
    refine ⟨hsig, ?_⟩
    have hpages := h.pages
    split
    next h0 =>
      have hzero : i = 0 := by
        by_contra hne
        rw [if_neg hne] at hpages
        exact U.total_pos.ne' (hpages.symm.trans h0)
      rw [U.lastOfAll_iff hi]
      rintro ⟨hone, hlast⟩
      exact hmore ⟨by omega, hone⟩
    next =>
      rw [hidx]
      exact h.free i le_rfl htable
  have hstore := h.store hi
  have hroom : ¬U.board.maxUbootSize < U.board.pageSize * i + U.board.pageSize := by
    have hle : U.total * U.board.pageSize ≤ U.board.maxUbootSize :=
      (Nat.mul_le_mul_right _ U.total_le).trans U.pageCount_fits
    have hnext : (i + 1) * U.board.pageSize ≤ U.total * U.board.pageSize :=
      Nat.mul_le_mul_right _ hi
    rw [Nat.succ_mul, Nat.mul_comm i] at hnext
    omega
  have hslot : i < (adopted s (U.page i).spare.oob).pageValidTable.length := by
    rw [← List.length_set (a := 1) (i := i)]
    exact lt_of_lt_of_le hi (U.total_le_table.trans hstore.length.ge)
  refine ⟨_, hstore, ?_⟩
  have hread : (U.read chip (.chunk (U.page i))).sts ≠ eccCtrlErr := read_sts i
  rw [ubootPass_of_takes hread htakes]
  change copyChunk U.board (adopted s (U.page i).spare.oob) (U.page i).spare.oob.idxChunk.toNat
    (U.page i).data = _
  rw [hidx, copyChunk, if_neg hroom, if_pos hslot]
  dsimp only
  rw [hstore.count, hstore.pages, if_neg (Nat.succ_ne_zero i)]
  by_cases hlast : i + 1 = U.total
  · rw [if_pos hlast, if_pos hlast]
  · rw [if_neg hlast, if_neg hlast, giveUpTest, hstore.pages, if_neg (Nat.succ_ne_zero i),
      if_neg fun hg => hlast hg.2]

theorem run_copy {ps : List PageRead} (hmore : ¬(U.total = 1 ∧ U.options.numUboot = 1))
    (h : U.Loading dram i s) (hi : i < U.total)
    (hps : ∀ j, i + j < U.total → ps[j]? = some (U.read chip (.chunk (U.page (i + j))))) :
    ∃ s', U.Loading dram U.total s' ∧ Scan.run (ubootPass U.board) s ps = .ret (U.total, s') := by
  induction ps generalizing i s with
  | nil => cases hps 0 hi
  | cons p ps ih =>
    obtain rfl : p = U.read chip (.chunk (U.page i)) := Option.some.inj (hps 0 hi)
    obtain ⟨s', hs', hpass⟩ := h.pass hi hmore
    by_cases hlast : i + 1 = U.total
    · rw [if_pos hlast] at hpass
      exact ⟨s', hlast ▸ hs', Scan.run_cons_ret hpass⟩
    · rw [if_neg hlast] at hpass
      rw [Scan.run_cons_next hpass]
      refine ih hs' (by omega) fun j hj => ?_
      rw [Nat.add_assoc, Nat.add_comm 1]
      exact hps (j + 1) (by omega)

theorem eccUbootToDram_eq (U : UbootOnFlash) (chip : Chip) (rest : Nat) (dram : Mem) :
    ∃ ps : List PageRead,
      (∀ j < U.total, ps[j]? = some (U.read chip (.chunk (U.page j)))) ∧
      ∀ r, Scan.run (ubootPass U.board) (.init U.board dram) ps = .ret r →
        eccUbootToDram U.board dram (U.flash chip rest) = .ret r := by
  obtain ⟨front, more, hfront, hdrop⟩ := U.flash_drop chip rest
  refine ⟨(ubootCopy U.options U.file 0).map (U.read chip) ++ more, fun j hj => ?_,
    fun r hr => ?_⟩
  · have hget := U.getElem?_copy (lt_of_lt_of_le hj U.total_le)
    have hlt : j < ((ubootCopy U.options U.file 0).map (U.read chip)).length := by
      rw [List.length_map]
      exact (List.getElem?_eq_some_iff.mp hget).1
    rw [List.getElem?_append_left hlt, List.getElem?_map, hget, Option.map_some]
  · have hskip : Scan.run (ubootPass U.board) (.init U.board dram) (front.map (U.read chip)) =
        .next (.init U.board dram) := by
      refine run_front rfl fun p hp => ?_
      obtain ⟨w, hw, rfl⟩ := List.mem_map.mp hp
      exact signature_of_front hfront hw
    rw [eccUbootToDram, hdrop, Scan.run_append hskip, hr]

theorem only_page (U : UbootOnFlash) (chip : Chip) (rest : Nat) (dram : Mem) (hone : U.total = 1)
    (hnum : U.options.numUboot = 1) :
    ∃ s, eccUbootToDram U.board dram (U.flash chip rest) = .ret (-1, s) := by
  obtain ⟨ps, hps, hrun⟩ := U.eccUbootToDram_eq chip rest dram
  have hlast : (U.page 0).spare.oob.LastOfAll :=
    (U.lastOfAll_iff U.total_pos).mpr ⟨hnum, hone.symm⟩
  have hfirst := hps 0 U.total_pos
  cases ps with
  | nil => cases hfirst
  | cons p ps =>
    cases hfirst
    exact ⟨_, hrun _ (Scan.run_cons_ret (ubootPass_of_lastOfAll (read_sts 0) rfl rfl hlast))⟩

theorem loads_total (U : UbootOnFlash) (chip : Chip) (rest : Nat) (dram : Mem)
    (hmore : ¬(U.total = 1 ∧ U.options.numUboot = 1)) :
    ∃ s, U.Loading dram U.total s ∧
      eccUbootToDram U.board dram (U.flash chip rest) = .ret (U.total, s) := by
  obtain ⟨ps, hps, hrun⟩ := U.eccUbootToDram_eq chip rest dram
  obtain ⟨s, hs, hr⟩ := run_copy hmore (U.loading_init dram) U.total_pos fun j hj => by
    rw [Nat.zero_add]
    exact hps j (by omega)
  exact ⟨s, hs, hrun _ hr⟩

theorem page_data (U : UbootOnFlash) (hk : k < U.image.length) :
    (U.page (k / U.board.pageSize)).data (k % U.board.pageSize) = U.image[k] := by
  have hmod := Nat.mod_lt k U.board.pageSize_pos
  have hsum := Nat.div_add_mod' k U.board.pageSize
  change ((U.image.drop (k / U.board.pageSize * U.board.pageSize)).take U.board.pageSize).getD
    (k % U.board.pageSize) 0xFF = _
  rw [List.getD_eq_getElem?_getD, List.getElem?_take_of_lt hmod, List.getElem?_drop, hsum,
    List.getElem?_eq_getElem hk, Option.getD_some]

theorem Counted.loads (h : U.Counted) (rest : Nat) : U.Loads chip rest := by
  intro dram
  obtain ⟨s, hs, hr⟩ := U.loads_total chip rest dram h.2
  refine ⟨U.total, s, hr, by exact_mod_cast U.total_pos, fun k hk => ?_⟩
  have hpage : k / U.board.pageSize < U.total := by
    refine (Nat.div_lt_iff_lt_mul U.board.pageSize_pos).mpr (lt_of_lt_of_le hk ?_)
    rw [total, ← h.1]
    exact U.le_pageCount _
  have hbyte := hs.loaded _ hpage _ (Nat.mod_lt k U.board.pageSize_pos)
  rw [Nat.add_assoc, Nat.div_add_mod, U.page_data hk] at hbyte
  exact hbyte

theorem Loads.counted (h : U.Loads chip rest) : U.Counted := by
  have hmore : ¬(U.total = 1 ∧ U.options.numUboot = 1) := by
    rintro ⟨hone, hnum⟩
    obtain ⟨s, hs⟩ := U.only_page chip rest (fun _ => 0) hone hnum
    obtain ⟨count, s', hs', hpos, -⟩ := h fun _ => 0
    cases hs.symm.trans hs'
    exact absurd hpos (by decide)
  refine ⟨?_, hmore⟩
  by_contra hne
  have hlt : U.total < U.pageCount U.image.length := lt_of_le_of_ne U.total_le (Ne.symm hne)
  have hlong : U.total * U.board.pageSize < U.image.length := by
    rw [pageCount, Nat.lt_div_iff_mul_lt U.board.pageSize_pos] at hlt
    omega
  let last := U.image.length - 1
  have hlast : last < U.image.length := by omega
  obtain ⟨s, hs, hr⟩ := U.loads_total chip rest (fun _ => U.image[last] + 1) hmore
  obtain ⟨count, s', hs', -, hbytes⟩ := h fun _ => U.image[last] + 1
  cases hr.symm.trans hs'
  have hbyte := hbytes last hlast
  rw [hs.beyond _ (by rw [Nat.mul_comm]; omega)] at hbyte
  exact absurd hbyte (by simp)

/-- The loader gets what the image builder wrote exactly when the header does not take a
page more and U-Boot has more than one page. -/
theorem loads_iff (U : UbootOnFlash) (chip : Chip) (rest : Nat) :
    U.Loads chip rest ↔ U.Counted :=
  ⟨fun h => h.counted, fun h => h.loads rest⟩

end UbootOnFlash

-- ---------------------------------------------------------------------------
-- A file of one page
-- ---------------------------------------------------------------------------

theorem signature_of_writeOutPlr (h : writeOutPlr o file = .ok pages) (hp : .chunk p ∈ pages) :
    p.spare.signature ≠ signatureUboot := by
  have hcopy : ∀ {n cn : Nat} {file : List UInt8}, Written.chunk p ∉ (flLoop n cn file).1 := by
    intro n cn file
    fun_induction flLoop n cn file with
    | case1 => exact List.not_mem_nil
    | case2 => exact chunk_notMem_flEmit
    | case3 cn file _ data pages cn' _ more cn'' file' hmore ih =>
      intro hp
      rcases List.mem_append.mp hp with hp | hp
      · exact chunk_notMem_flEmit hp
      · exact ih (by rwa [hmore])
  unfold writeOutPlr at h
  split at h
  next => cases h
  next =>
    dsimp only at h
    split at h
    next => cases h
    next =>
      cases h
      rcases List.mem_append.mp hp with hp | hp
      · obtain ⟨r, -, hp⟩ := List.mem_flatMap.mp hp
        rcases List.mem_append.mp hp with hp | hp
        · exact absurd hp hcopy
        · obtain ⟨x, -, hx⟩ := List.mem_map.mp hp
          cases hx
          change signaturePlr ≠ signatureUboot
          decide
      · cases List.eq_of_mem_replicate hp

def defaultUbootOptions : UbootOptions where
  pageSize := 2048
  supported := supported_2048
  pagePerBlock := 64
  numUboot := 2
  ubootFrom := 1
  ubootCont := false
  ubootUseHdr := true
  ubootMagic := 0x6C6F6164
  ubootImageSize := 0
  ubootLoadAddr := 0x80000000
  ubootEntryAddr := 0x80000000
  ubootCompType := 0

def onePageFile : List UInt8 := List.replicate 2048 0

theorem length_onePageFile : onePageFile.length = 2048 := List.length_replicate

theorem onePageFile_ne : onePageFile ≠ [] :=
  List.ne_nil_of_length_pos (length_onePageFile ▸ Nat.succ_pos 2047)

theorem length_onePageImage : (ubootImage defaultUbootOptions onePageFile).length = 2112 := by
  change (uimageHeader defaultUbootOptions onePageFile ++ onePageFile).length = 2112
  rw [List.length_append, length_uimageHeader, length_onePageFile]
  rfl

theorem onePage_written : writeOutUboot defaultUbootOptions 0 onePageFile =
    .ok (List.replicate 64 .blank ++ ubootCopies defaultUbootOptions onePageFile 2 0 64) := by
  have hskip : skipBlocks defaultUbootOptions 0 = .ok (List.replicate 64 .blank) := rfl
  rw [writeOutUboot, hskip, ok_bind, List.length_replicate]
  rfl

def onePage : UbootOnFlash where
  board := board9603cvd
  options := defaultUbootOptions
  file := onePageFile
  before := []
  pages := List.replicate 64 .blank ++ ubootCopies defaultUbootOptions onePageFile 2 0 64
  board_pageSize := rfl
  board_max := .inl rfl
  pagePerBlock := rfl
  file_ne := onePageFile_ne
  numUboot_ne := by decide
  ubootFrom_ne := by decide
  ubootFrom_given := by decide
  fits := length_onePageImage.trans_le (by decide)
  foreign := fun _ h => absurd h List.not_mem_nil
  written := onePage_written

/-- Of 64 bytes of header and 2048 bytes of U-Boot, one page is loaded. -/
theorem onePage_not_loaded : ¬onePage.Loads strictChip 0 := by
  intro h
  have himage : onePage.image.length = 2112 := length_onePageImage
  have hfile : onePage.file.length = 2048 := length_onePageFile
  have hcount := h.counted.1
  rw [himage, hfile] at hcount
  exact absurd hcount (by decide)

end BismarckPreloader.Bchenc
