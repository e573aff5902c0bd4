import BismarckPreloader.Authbch.Output
import BismarckPreloader.Nand.PageMap

/-!
# The preloader of a signed image is found

The output of the signing tool lies on a flash without errors, and `nsu_init` builds its
map from it. The copies of the tree in front of the preloader count as pages, and the
map builder gives up by that count in the last copy of the preloader: `boots_iff` says
when it has found the first copy by then.

The first-load format is recognised by what is in a page, so an ordinary page may look
like one. What the engine makes of a page in the other format is a parameter.
-/

namespace BismarckPreloader.Authbch

open Nand

/-- A finished run whose tree fits the buffer of the boot code and whose preloader fits the
table of the board. -/
structure Bootable (t : Tool) (info : CryptoInfo) extends Shipped t info where
  board : Board
  board_pageSize : board.pageSize = info.target.pageSize
  board_table : board.plrMapTableSize = 80
  tree_fits : p.fdtSize ≤ 2048
  plr_fits : roundToFlPage (getFirstLoadBytes p.plr) +
    roundToPage board.pageSize (p.plr.length - getFirstLoadBytes p.plr) ≤ board.plrMapTableSize

namespace Bootable

variable {t : Tool} {info : CryptoInfo} (S : Bootable t info) (chip : Chip)

def firstLoad : Nat := getFirstLoadBytes S.p.plr

def numFl : Nat := roundToFlPage S.firstLoad

def numOrdinary : Nat := roundToPage S.board.pageSize (S.p.plr.length - S.firstLoad)

def total : Nat := S.numFl + S.numOrdinary

def front : Nat := treeCount info.target S.p.fdtSize

def ordinary (j : Nat) : Nat → UInt8 :=
  onOnes (((S.p.plr.drop S.firstLoad).drop (j * S.board.pageSize)).take S.board.pageSize)

def copy (r : Nat) : List Written := plrCopy S.board.pageSize info.copies S.p.plr r

def flash (rest : Nat) : List PlrPageRead :=
  (S.pages ++ List.replicate rest Written.blank).map (chip.read S.board.sectorPerPage)

/-- `nsu_init` returns 0, and every chunk's entry is a page that was written for that chunk. -/
def Boots (rest : Nat) : Prop :=
  ∃ s, nsuInit S.board (S.flash chip rest) = .ret (0, s) ∧
    ∀ i < S.total, ∃ e r, s.plrVmpageTable[i]? = some e ∧ e ≠ 0xFFFF ∧ r < info.copies.toNat ∧
      S.pages[e.toNat]? = (S.copy r)[i]?

def Mistaken (j : Nat) : Prop := isPlrFirstLoadPart (chip.asFirstLoad (S.ordinary j)) = 1#32

instance (j : Nat) : Decidable (S.Mistaken chip j) := inferInstanceAs (Decidable (_ = _))

/-- An ordinary page that is taken for a first-load page names its own chunk; at least one
is taken for what it is; and in a single copy behind a tree of two pages only the last may
be. -/
structure FirstCopyFound : Prop where
  own : ∀ j < S.numOrdinary, S.Mistaken chip j →
    (chip.asFirstLoad (S.ordinary j)).pageIndex.toNat = S.numFl + j
  announced : ∃ j < S.numOrdinary, ¬S.Mistaken chip j
  counted : info.copies = 1 → 1024 < S.p.fdtSize →
    ∀ j, j + 1 < S.numOrdinary → S.Mistaken chip j

theorem total_le : S.total ≤ 80 := S.board_table ▸ S.plr_fits

theorem length_copy (r : Nat) : (S.copy r).length = S.total := by
  have hin := S.plr.inside
  simp only [copy, plrCopy, chunkPages, List.length_append, length_flPages, List.length_map,
    List.length_zipIdx, length_pieces, List.length_take, List.length_drop, Nat.min_eq_left hin]
  rfl

theorem length_flArea : (flPages signaturePlrFl (S.p.plr.take S.firstLoad)).length = S.numFl := by
  have hin : S.firstLoad ≤ S.p.plr.length := S.plr.inside
  rw [length_flPages, List.length_take, Nat.min_eq_left hin]
  rfl

theorem copy_firstLoad (r : Nat) (hi : i < S.numFl) :
    ∃ p : FlPage, (S.copy r)[i]? = some (.firstLoad p) ∧ p.signature = signaturePlrFl ∧
      p.pageIndex.toNat = i := by
  have hcount : i < (flPages signaturePlrFl (S.p.plr.take S.firstLoad)).length :=
    S.length_flArea ▸ hi
  have hle : S.numFl ≤ 80 := le_trans (Nat.le_add_right _ _) S.total_le
  refine ⟨_, (List.getElem?_append_left hcount).trans (getElem?_flPages ?_), rfl, ?_⟩
  · rwa [length_flPages] at hcount
  · show (UInt16.ofNat i).toNat = i
    rw [UInt16.toNat_ofNat', Nat.mod_eq_of_lt]
    omega

def chunkNum (r j : Nat) : UInt32 :=
  (UInt32.ofNat r <<< 16 ||| UInt32.ofNat S.numFl) + UInt32.ofNat j

def spare (r j : Nat) : Spare where
  bbi := bbiGoodblock
  reserved := reserve
  signature := signaturePlr
  chunkNum := S.chunkNum r j
  startupNum := UInt32.ofNat S.numFl
  totalChunk := UInt32.ofNat (S.numOrdinary + S.numFl)
  numCopy := UInt32.ofNat info.copies.toNat

theorem copy_ordinary (r : Nat) (hj : j < S.numOrdinary) :
    (S.copy r)[S.numFl + j]? = some (.chunk ⟨S.spare r j, S.ordinary j⟩) := by
  have hcount : (flPages signaturePlrFl (S.p.plr.take S.firstLoad)).length ≤ S.numFl + j := by
    rw [S.length_flArea]
    exact Nat.le_add_right _ _
  refine (List.getElem?_append_right hcount).trans ?_
  rw [S.length_flArea, Nat.add_sub_cancel_left]
  refine getElem?_chunkPages ?_
  rw [List.length_drop]
  exact hj

theorem chunkNum_toNat (hr : r < 256) (hj : S.numFl + j < 2 ^ 16) :
    (S.chunkNum r j).toNat = r * 2 ^ 16 + (S.numFl + j) := by
  rw [chunkNum, countOn_toNat r hj, Nat.mod_eq_of_lt (by omega : r < 2 ^ 16)]

theorem isPlrFirstLoadPart_clean (signature : UInt32) (pageIndex : UInt16) :
    isPlrFirstLoadPart ⟨clean, clean, signature, pageIndex⟩ = 1#32 ↔
      signature = signaturePlrFl := by
  simp [isPlrFirstLoadPart_eq_one, clean, EccSts.Uncorrectable]

theorem not_fail_of_correctable (h : ¬r.Uncorrectable) :
    isEccDecodeFail (eccDecodeBchSector (List.replicate S.board.sectorPerPage r)) = false := by
  rw [Bool.eq_false_iff, ne_eq, isEccDecodeFail_eccDecodeBchSector]
  · rintro ⟨r', hr', hu⟩
    rw [List.eq_of_mem_replicate hr'] at hu
    exact h hu
  · rw [List.length_replicate]
    exact S.board.sectorPerPage_le

theorem clean_not_fail :
    isEccDecodeFail (eccDecodeBchSector (List.replicate S.board.sectorPerPage clean)) = false :=
  S.not_fail_of_correctable (by decide)

def reads (w : Written) : PlrPageRead := chip.read S.board.sectorPerPage w

theorem spare_oob (hr : r < 256) (hj : j < S.numOrdinary) :
    (S.spare r j).oob.idxChunk.toNat = S.numFl + j ∧ (S.spare r j).oob.idxCopy.toNat = r ∧
      (S.spare r j).oob.totalChunk.toNat = S.total ∧
      (S.spare r j).oob.numCopy.toNat = info.copies.toNat := by
  have htotal : S.numFl + S.numOrdinary ≤ 80 := S.total_le
  have hcopies := info.copies.toNat_lt
  have hnum := S.chunkNum_toNat hr (by omega : S.numFl + j < 2 ^ 16)
  refine ⟨?_, ?_, ?_, ?_⟩
  · rw [Spare.oob, spare, UInt16.toNat_ofNat', hnum]
    omega
  · rw [Spare.oob, spare, UInt16.toNat_ofNat', hnum]
    omega
  · rw [Spare.oob, spare, UInt32.toNat_ofNat', total]
    omega
  · rw [Spare.oob, spare, UInt32.toNat_ofNat']
    omega

theorem slot_ordinary (hr : r < 256) (hj : j < S.numOrdinary) :
    (S.reads chip (.chunk ⟨S.spare r j, S.ordinary j⟩)).slot? =
      if S.Mistaken chip j then some (chip.asFirstLoad (S.ordinary j)).pageIndex.toNat
      else some (S.numFl + j) := by
  unfold PlrPageRead.slot?
  have hsig : (S.reads chip (.chunk ⟨S.spare r j, S.ordinary j⟩)).oob.signature = signaturePlr := rfl
  rw [hsig]
  simp only [reads, Chip.read, S.clean_not_fail, and_self, if_true, (S.spare_oob hr hj).1, Mistaken]
  rfl

-- ---------------------------------------------------------------------------
-- The first copy
-- ---------------------------------------------------------------------------

def filled (i : Nat) : List UInt16 :=
  (List.range i).map (fun k => UInt16.ofNat (S.front + k)) ++ List.replicate (80 - i) 0xFFFF

theorem filled_hole (hi : i < 80) : (S.filled i)[i]? = some 0xFFFF := by
  rw [filled, List.getElem?_append_right (by simp), List.length_map, List.length_range,
    Nat.sub_self, List.getElem?_replicate, if_pos (by omega)]

theorem filled_set (hi : i < 80) :
    (S.filled i).set i (UInt16.ofNat (S.front + i)) = S.filled (i + 1) := by
  have hrest : List.replicate (80 - i) (0xFFFF : UInt16) =
      0xFFFF :: List.replicate (80 - (i + 1)) 0xFFFF := by
    rw [← List.replicate_succ]
    congr 1
    omega
  rw [filled, List.set_append_right _ _ (by simp), hrest, filled, List.range_succ, List.map_append,
    List.append_assoc]
  simp

theorem filled_entry (hk : k < i) : (S.filled i)[k]? = some (UInt16.ofNat (S.front + k)) := by
  rw [filled, List.getElem?_append_left (by simpa using hk), List.getElem?_map,
    List.getElem?_range hk, Option.map_some]

def Known (i : Nat) : Prop := ∃ j, j < S.numOrdinary ∧ ¬S.Mistaken chip j ∧ S.numFl + j < i

instance (i : Nat) : Decidable (S.Known chip i) :=
  inferInstanceAs (Decidable (∃ j, j < S.numOrdinary ∧ _))

structure Stage (i : Nat) (s : MapState) : Prop where
  table : s.plrVmpageTable = S.filled i
  valid : s.cntValidChunk = i
  known : S.Known chip i → s.totalNumOfChunk = S.total
  unknown : ¬S.Known chip i → s.totalNumOfChunk = 0

variable {S chip}

theorem mapChunk_next (ht : s.plrVmpageTable = S.filled i) (hi : i < 80) (o : PlrOob) :
    mapChunk s i (S.front + i) o =
      if (s.fill i (S.front + i)).cntValidChunk = (s.fill i (S.front + i)).totalNumOfChunk then
        .ret (0, s.fill i (S.front + i))
      else mapFoot (s.fill i (S.front + i)) o := by
  rw [mapChunk, ht, S.filled_hole hi]
  rfl

/-- The chunk is put in its slot; then the map is complete, or the pass goes on to the foot
of the loop. -/
theorem Stage.fill (hi : i < 80) (ht : s.plrVmpageTable = S.filled i) (hv : s.cntValidChunk = i)
    (hk : S.Known chip (i + 1) → s.totalNumOfChunk = S.total)
    (hu : ¬S.Known chip (i + 1) → s.totalNumOfChunk = 0) (o : PlrOob) :
    ∃ s', S.Stage chip (i + 1) s' ∧ s'.cntPge = s.cntPge ∧
      mapChunk s i (S.front + i) o =
        if S.Known chip (i + 1) ∧ i + 1 = S.total then .ret (0, s') else mapFoot s' o := by
  refine ⟨s.fill i (S.front + i), ⟨?_, ?_, hk, hu⟩, rfl, ?_⟩
  · rw [MapState.fill, ht, S.filled_set hi]
  · rw [MapState.fill, hv]
  · rw [mapChunk_next ht hi]
    have hcount : (s.fill i (S.front + i)).cntValidChunk = i + 1 := by rw [MapState.fill, hv]
    have htotal : (s.fill i (S.front + i)).totalNumOfChunk = s.totalNumOfChunk := rfl
    rw [hcount, htotal]
    by_cases hkn : S.Known chip (i + 1)
    · rw [hk hkn]
      simp only [hkn, true_and]
    · rw [hu hkn]
      simp only [hkn, false_and, if_false, Nat.succ_ne_zero]

theorem known_succ (hj : j < S.numOrdinary) :
    S.Known chip (S.numFl + j + 1) ↔ S.Known chip (S.numFl + j) ∨ ¬S.Mistaken chip j := by
  constructor
  · rintro ⟨k, hk, hm, hlt⟩
    by_cases hkj : k = j
    · exact .inr (hkj ▸ hm)
    · exact .inl ⟨k, hk, hm, by omega⟩
  · rintro (⟨k, hk, hm, hlt⟩ | hm)
    · exact ⟨k, hk, hm, by omega⟩
    · exact ⟨j, hj, hm, by omega⟩

theorem mapPass_firstLoad {p : FlPage} (s : MapState) (n : Nat) (hsig : p.signature = signaturePlrFl) :
    mapPass s (S.reads chip (.firstLoad p), n) =
      mapChunk s p.pageIndex.toNat n (S.reads chip (.firstLoad p)).oob := by
  have hfirst : isPlrFirstLoadPart (S.reads chip (.firstLoad p)).fl = 1#32 :=
    (isPlrFirstLoadPart_clean _ _).mpr hsig
  rw [mapPass, if_pos hfirst]
  rfl

theorem mapPass_mistaken (s : MapState) (n : Nat) (hm : S.Mistaken chip j) :
    mapPass s (S.reads chip (.chunk ⟨S.spare 0 j, S.ordinary j⟩), n) =
      mapChunk s (chip.asFirstLoad (S.ordinary j)).pageIndex.toNat n (S.spare 0 j).oob := by
  have hfirst : isPlrFirstLoadPart
      (S.reads chip (.chunk ⟨S.spare 0 j, S.ordinary j⟩)).fl = 1#32 := hm
  rw [mapPass, if_pos hfirst]
  rfl

theorem mapPass_ordinary (s : MapState) (n : Nat) (hj : j < S.numOrdinary)
    (hm : ¬S.Mistaken chip j) :
    mapPass s (S.reads chip (.chunk ⟨S.spare 0 j, S.ordinary j⟩), n) =
      mapChunk (s.announce (S.spare 0 j).oob) (S.numFl + j) n (S.spare 0 j).oob := by
  obtain ⟨hchunk, -⟩ := S.spare_oob (by decide : 0 < 256) hj
  have hok : isEccDecodeFail (S.reads chip (.chunk ⟨S.spare 0 j, S.ordinary j⟩)).sts = false :=
    S.clean_not_fail
  have hfirst : ¬isPlrFirstLoadPart
      (S.reads chip (.chunk ⟨S.spare 0 j, S.ordinary j⟩)).fl = 1#32 := hm
  have hsig : ¬(S.reads chip (.chunk ⟨S.spare 0 j, S.ordinary j⟩)).oob.signature ≠
      signaturePlr := not_not.mpr rfl
  rw [mapPass, if_neg hfirst, if_pos hok, if_neg hsig]
  exact congrArg (mapChunk _ · _ _) hchunk

theorem Stage.pass (hs : S.Stage chip i s) (hw : (S.copy 0)[i]? = some w)
    (hown : ∀ j < S.numOrdinary, S.Mistaken chip j →
      (chip.asFirstLoad (S.ordinary j)).pageIndex.toNat = S.numFl + j) :
    ∃ s', S.Stage chip (i + 1) s' ∧ s'.cntPge = s.cntPge ∧
      mapPass s (S.reads chip w, S.front + i) =
        if S.Known chip (i + 1) ∧ i + 1 = S.total then .ret (0, s')
        else mapFoot s' (S.reads chip w).oob := by
  have hlt : i < S.total := S.length_copy 0 ▸ (List.getElem?_eq_some_iff.mp hw).1
  have hi : i < 80 := lt_of_lt_of_le hlt S.total_le
  by_cases hfl : i < S.numFl
  · obtain ⟨p, hp, hsig, hidx⟩ := S.copy_firstLoad 0 hfl
    cases hw.symm.trans hp
    have hno : ∀ k ≤ i + 1, ¬S.Known chip k := by
      rintro k hk ⟨j, -, -, hj⟩
      omega
    rw [S.mapPass_firstLoad s _ hsig, hidx]
    exact Stage.fill hi hs.table hs.valid (fun h => absurd h (hno _ le_rfl))
      (fun _ => hs.unknown (hno _ (Nat.le_succ i))) _
  · obtain ⟨j, rfl⟩ := Nat.exists_eq_add_of_le (Nat.le_of_not_lt hfl)
    have hj : j < S.numOrdinary := by
      rw [total] at hlt
      omega
    cases hw.symm.trans (S.copy_ordinary 0 hj)
    by_cases hm : S.Mistaken chip j
    · have hsame : S.Known chip (S.numFl + j + 1) ↔ S.Known chip (S.numFl + j) := by
        rw [known_succ hj]
        simp [hm]
      rw [S.mapPass_mistaken s _ hm, hown j hj hm]
      exact Stage.fill hi hs.table hs.valid (fun h => hs.known (hsame.mp h))
        (fun h => hs.unknown (fun hk => h (hsame.mpr hk))) _
    · obtain ⟨-, -, htotal, -⟩ := S.spare_oob (by decide : 0 < 256) hj
      obtain ⟨hat, hac, hap, han⟩ := announce_fields s (S.spare 0 j).oob
      have hall : (s.announce (S.spare 0 j).oob).totalNumOfChunk = S.total := by
        rw [han, htotal]
        by_cases hk : S.Known chip (S.numFl + j)
        · rw [hs.known hk]
          simp
        · rw [hs.unknown hk, if_pos rfl]
      obtain ⟨s', hs', hcnt, he⟩ := Stage.fill hi (hat.trans hs.table) (hac.trans hs.valid)
        (fun _ => hall) (fun h => absurd ((known_succ hj).mpr (.inr hm)) h) (S.spare 0 j).oob
      exact ⟨s', hs', hcnt.trans hap, (S.mapPass_ordinary s _ hj hm).trans he⟩

/-- Where the map builder gives up: it knows the number of chunks, has counted that many
pages, and the copy is the last one. -/
def GivesUp (S : Bootable t info) (chip : Chip) (i : Nat) : Prop :=
  info.copies = 1 ∧ S.Known chip (i + 1) ∧ S.total ≤ S.front + i

theorem known_le (h : S.Known chip (i + 1)) : S.numFl ≤ i := by
  obtain ⟨j, -, -, hlt⟩ := h
  omega

theorem oob_of_known (hk : S.Known chip (i + 1)) (hw : (S.copy 0)[i]? = some w) :
    (S.reads chip w).oob.idxCopy.toNat = 0 ∧
      (S.reads chip w).oob.numCopy.toNat = info.copies.toNat := by
  have hlt : i < S.total := S.length_copy 0 ▸ (List.getElem?_eq_some_iff.mp hw).1
  obtain ⟨j, rfl⟩ := Nat.exists_eq_add_of_le (known_le hk)
  have hj : j < S.numOrdinary := by
    rw [total] at hlt
    omega
  cases hw.symm.trans (S.copy_ordinary 0 hj)
  obtain ⟨-, hcopy, -, hnum⟩ := S.spare_oob (by decide : 0 < 256) hj
  exact ⟨hcopy, hnum⟩

theorem Stage.foot_ret (hs : S.Stage chip (i + 1) s) (hw : (S.copy 0)[i]? = some w)
    (hcnt : info.copies = 1 → s.cntPge = S.front + i) (h : S.GivesUp chip i) :
    ∃ s', mapFoot s (S.reads chip w).oob = .ret (-2, s') := by
  obtain ⟨hc, hk, hle⟩ := h
  have hlt : i < S.total := S.length_copy 0 ▸ (List.getElem?_eq_some_iff.mp hw).1
  obtain ⟨hcopy, hnum⟩ := oob_of_known hk hw
  have hfull : s.totalNumOfChunk ≤ s.cntPge ∧ s.totalNumOfChunk ≠ 0 := by
    rw [hs.known hk, hcnt hc]
    omega
  rw [mapFoot, if_pos hfull, if_pos (by rw [hcopy, hnum, hc]; rfl)]
  exact ⟨_, rfl⟩

theorem Stage.foot_next (hs : S.Stage chip (i + 1) s) (hw : (S.copy 0)[i]? = some w)
    (hcnt : info.copies = 1 → s.cntPge = S.front + i) (h : ¬S.GivesUp chip i) :
    ∃ s', mapFoot s (S.reads chip w).oob = .next s' ∧ S.Stage chip (i + 1) s' ∧
      (info.copies = 1 → s'.cntPge = S.front + (i + 1)) := by
  unfold mapFoot
  split
  next hfull =>
    have hk : S.Known chip (i + 1) := by
      by_contra hk
      exact hfull.2 (hs.unknown hk)
    obtain ⟨hcopy, hnum⟩ := oob_of_known hk hw
    have hc : info.copies ≠ 1 := by
      intro hc
      refine h ⟨hc, hk, ?_⟩
      rw [← hs.known hk, ← hcnt hc]
      exact hfull.1
    have hlast : ¬(S.reads chip w).oob.idxCopy.toNat + 1 = (S.reads chip w).oob.numCopy.toNat := by
      rw [hcopy, hnum]
      exact fun he => hc (UInt8.toNat_inj.mp he.symm)
    rw [if_neg hlast]
    exact ⟨_, rfl, ⟨hs.table, hs.valid, hs.known, hs.unknown⟩, fun he => absurd he hc⟩
  next =>
    refine ⟨_, rfl, ⟨hs.table, hs.valid, hs.known, hs.unknown⟩, fun hc => ?_⟩
    rw [MapState.advance, hcnt hc, Nat.add_assoc]

-- ---------------------------------------------------------------------------
-- The scan
-- ---------------------------------------------------------------------------

def Foreign (p : PlrPageRead) : Prop :=
  isPlrFirstLoadPart p.fl ≠ 1#32 ∧ p.oob.signature ≠ signaturePlr

theorem mapPass_foreign (hp : Foreign p) (h0 : s.totalNumOfChunk = 0) (a : Nat) :
    mapPass s (p, a) = .next s.advance := by
  rw [mapPass, if_neg hp.1]
  split
  · rw [if_pos hp.2]
  · rw [mapFoot, if_neg (by simp [h0])]

theorem run_foreign {ps : List PlrPageRead} (hp : ∀ p ∈ ps, Foreign p) (h0 : s.totalNumOfChunk = 0) (a : Nat) :
    Scan.run mapPass s (ps.zipIdx a) = .next { s with cntPge := s.cntPge + ps.length } := by
  induction ps generalizing s a with
  | nil => rfl
  | cons p ps ih =>
    rw [List.zipIdx_cons, Scan.run_cons_next (mapPass_foreign (hp p List.mem_cons_self) h0 a),
      ih (fun q hq => hp q (List.mem_cons_of_mem p hq)) (by exact h0)]
    simp only [MapState.advance, List.length_cons, Outcome.next.injEq]
    congr 1
    omega

variable (S chip) in
def firstCopy : List (PlrPageRead × Nat) := ((S.copy 0).map (S.reads chip)).zipIdx S.front

theorem getElem?_firstCopy (hw : (S.copy 0)[i]? = some w) :
    (S.firstCopy chip)[i]? = some (S.reads chip w, S.front + i) := by
  rw [firstCopy, List.getElem?_zipIdx, List.getElem?_map, hw]
  rfl

theorem exists_chunk (S : Bootable t info) (hi : i < S.total) : ∃ w, (S.copy 0)[i]? = some w :=
  ⟨_, List.getElem?_eq_getElem (by rwa [S.length_copy])⟩

/-- The scan gets to chunk `i` unless it gave up before. -/
theorem run_take_firstCopy
    (hown : ∀ j < S.numOrdinary, S.Mistaken chip j →
      (chip.asFirstLoad (S.ordinary j)).pageIndex.toNat = S.numFl + j)
    (h₀ : S.Stage chip 0 s₀) (hc₀ : info.copies = 1 → s₀.cntPge = S.front)
    (hi : i < S.total) (hno : ∀ k < i, ¬S.GivesUp chip k) :
    ∃ s, Scan.run mapPass s₀ ((S.firstCopy chip).take i) = .next s ∧ S.Stage chip i s ∧
      (info.copies = 1 → s.cntPge = S.front + i) := by
  induction i with
  | zero => exact ⟨s₀, rfl, h₀, hc₀⟩
  | succ i ih =>
    obtain ⟨s, hrun, hs, hc⟩ := ih (by omega) fun k hk => hno k (by omega)
    obtain ⟨w, hw⟩ := S.exists_chunk (by omega : i < S.total)
    obtain ⟨s₁, hs₁, hc₁, hpass⟩ := hs.pass hw hown
    rw [if_neg (by omega)] at hpass
    obtain ⟨s₂, hfoot, hs₂, hc₂⟩ := hs₁.foot_next hw (fun he => hc₁.trans (hc he)) (hno i (by omega))
    refine ⟨s₂, ?_, hs₂, hc₂⟩
    have hget := List.getElem?_eq_some_iff.mp (getElem?_firstCopy hw : (S.firstCopy chip)[i]? = _)
    rw [← List.take_concat_get' _ _ hget.1, hget.2, Scan.run_append hrun,
      Scan.run_cons_next (hpass.trans hfoot)]
    rfl

variable (S chip) in
def treeReads : List PlrPageRead :=
  (fdtPages (treeBytes S.fdt S.p.fdtSize) info.copies.toNat).map (S.reads chip)

theorem length_treeReads : (S.treeReads chip).length = S.front := by
  rw [treeReads, List.length_map]
  exact length_treePages info.target S.fdt S.p.fdtSize

theorem mem_flPages (h : w ∈ flPages sig img) : ∃ p : FlPage, w = .firstLoad p ∧ p.signature = sig := by
  obtain ⟨⟨d, i⟩, -, rfl⟩ := List.mem_map.mp h
  exact ⟨_, rfl, rfl⟩

variable (S chip) in
theorem treeReads_foreign : ∀ p ∈ S.treeReads chip, Foreign p := by
  intro p hp
  obtain ⟨w, hw, rfl⟩ := List.mem_map.mp hp
  obtain ⟨-, -, hw⟩ := List.mem_flatMap.mp hw
  obtain ⟨q, rfl, hsig⟩ := mem_flPages hw
  refine ⟨mt (isPlrFirstLoadPart_clean q.signature q.pageIndex).mp ?_, ?_⟩
  · rw [hsig]
    decide
  · change onesOob.signature ≠ signaturePlr
    decide

theorem plrPages_eq (S : Bootable t info) :
    ∃ more, plrPages info.target.pageSize info.copies S.p.plr = S.copy 0 ++ more := by
  obtain ⟨c, hc⟩ : ∃ c, info.copies.toNat = c + 1 :=
    Nat.exists_eq_succ_of_ne_zero fun h0 => S.copies_ne_zero (UInt8.toNat_inj.mp h0)
  rw [plrPages, hc, List.range_succ_eq_map, List.flatMap_cons, ← S.board_pageSize]
  exact ⟨_, rfl⟩

theorem pages_eq (S : Bootable t info) (rest : Nat) :
    ∃ more, S.pages ++ List.replicate rest Written.blank =
      fdtPages (treeBytes S.fdt S.p.fdtSize) info.copies.toNat ++ (S.copy 0 ++ more) := by
  obtain ⟨more, hmore⟩ := S.plrPages_eq
  rw [Shipped.pages, imageArea, plrArea, show info.target.copies = info.copies from rfl, hmore]
  simp only [List.append_assoc]
  exact ⟨_, rfl⟩

variable (S chip) in
theorem flash_zipIdx (rest : Nat) :
    ∃ more, (S.flash chip rest).zipIdx =
      (S.treeReads chip).zipIdx ++ (S.firstCopy chip ++ more) := by
  obtain ⟨more, hmore⟩ := S.pages_eq rest
  refine ⟨(more.map (S.reads chip)).zipIdx (S.front + S.total), ?_⟩
  have hflash : S.flash chip rest =
      S.treeReads chip ++ ((S.copy 0).map (S.reads chip) ++ more.map (S.reads chip)) := by
    rw [flash, hmore, List.map_append, List.map_append]
    rfl
  rw [hflash, List.zipIdx_append, List.zipIdx_append, length_treeReads, Nat.zero_add,
    List.length_map, S.length_copy]
  rfl

theorem stage_zero (S : Bootable t info) (chip : Chip) :
    S.Stage chip 0 { MapState.init S.board with cntPge := 0 + S.front } := by
  refine ⟨?_, rfl, ?_, fun _ => rfl⟩
  · rw [MapState.init, S.board_table]
    rfl
  · rintro ⟨j, -, -, hlt⟩
    omega

/-- What the scan does on chunk `i`, unless it gave up before. -/
theorem nsuInit_at (hi : i < S.total)
    (hown : ∀ j < S.numOrdinary, S.Mistaken chip j →
      (chip.asFirstLoad (S.ordinary j)).pageIndex.toNat = S.numFl + j)
    (hno : ∀ k < i, ¬S.GivesUp chip k) (rest : Nat) :
    ∃ s w, (S.copy 0)[i]? = some w ∧ S.Stage chip (i + 1) s ∧
      (info.copies = 1 → s.cntPge = S.front + i) ∧
      ∀ r : Int × MapState, (if S.Known chip (i + 1) ∧ i + 1 = S.total then .ret (0, s)
        else mapFoot s (S.reads chip w).oob) = .ret r →
          nsuInit S.board (S.flash chip rest) = .ret r := by
  obtain ⟨more, hflash⟩ := flash_zipIdx S chip rest
  have htree := run_foreign (s := .init S.board) (treeReads_foreign S chip) rfl 0
  rw [length_treeReads] at htree
  obtain ⟨s, hrun, hs, hc⟩ := run_take_firstCopy hown (S.stage_zero chip)
    (fun _ => Nat.zero_add _) hi hno
  obtain ⟨w, hw⟩ := S.exists_chunk hi
  obtain ⟨s', hs', hc', hpass⟩ := hs.pass hw hown
  refine ⟨s', w, hw, hs', fun he => hc'.trans (hc he), fun r hr => ?_⟩
  have hget := List.getElem?_eq_some_iff.mp (getElem?_firstCopy hw : (S.firstCopy chip)[i]? = _)
  have hsplit : S.firstCopy chip ++ more = (S.firstCopy chip).take i ++
      ((S.reads chip w, S.front + i) :: ((S.firstCopy chip).drop (i + 1) ++ more)) := by
    rw [← hget.2, ← List.cons_append, ← List.drop_eq_getElem_cons hget.1, ← List.append_assoc,
      List.take_append_drop]
  have hend : Scan.run mapPass (.init S.board) (S.flash chip rest).zipIdx = .ret r := by
    rw [hflash, hsplit, Scan.run_append htree]
    refine (Scan.run_append hrun).trans (Scan.run_cons_ret ?_)
    exact hpass.trans hr
  rw [nsuInit, hend]

theorem pages_firstCopy (S : Bootable t info) (hi : i < S.total) :
    S.pages[S.front + i]? = (S.copy 0)[i]? := by
  obtain ⟨more, hmore⟩ := S.pages_eq 0
  have hlen : (fdtPages (treeBytes S.fdt S.p.fdtSize) info.copies.toNat).length = S.front :=
    length_treePages info.target S.fdt S.p.fdtSize
  rw [List.replicate_zero, List.append_nil] at hmore
  rw [hmore, List.getElem?_append_right (by omega), hlen, Nat.add_sub_cancel_left,
    List.getElem?_append_left (by rwa [S.length_copy])]

theorem front_le (S : Bootable t info) : S.front ≤ 510 := by
  have hcopies := info.copies.toNat_lt
  have hpages : (S.p.fdtSize + 1024 - 1) / 1024 ≤ 2 := by
    have := S.tree_fits
    omega
  calc S.front = info.copies.toNat * ((S.p.fdtSize + 1024 - 1) / 1024) := rfl
    _ ≤ 255 * 2 := Nat.mul_le_mul (by omega) hpages

theorem FirstCopyFound.boots (h : S.FirstCopyFound chip) (rest : Nat) : S.Boots chip rest := by
  obtain ⟨j, hj, hm⟩ := h.announced
  have hpos : 0 < S.total := by
    rw [total]
    omega
  have hknown : S.Known chip (S.total - 1 + 1) := by
    refine ⟨j, hj, hm, ?_⟩
    rw [total]
    omega
  have hno : ∀ k < S.total - 1, ¬S.GivesUp chip k := by
    rintro k hk ⟨hc, ⟨i, hi, hmi, hlt⟩, hle⟩
    refine hmi (h.counted hc ?_ i ?_)
    · have hfront : S.front = 1 * ((S.p.fdtSize + 1024 - 1) / 1024) := by
        rw [front, treeCount, show info.target.copies = info.copies from rfl, hc]
        rfl
      omega
    · rw [total] at hk
      omega
  obtain ⟨s, w, hw, hs, -, hret⟩ := nsuInit_at (by omega) h.own hno rest
  refine ⟨s, hret _ (if_pos ⟨hknown, by omega⟩), fun i hi => ?_⟩
  have hfront := S.front_le
  have htotal := S.total_le
  have hsmall : (UInt16.ofNat (S.front + i)).toNat = S.front + i := by
    rw [UInt16.toNat_ofNat']
    omega
  refine ⟨UInt16.ofNat (S.front + i), 0, ?_, ?_, ?_, ?_⟩
  · rw [hs.table, S.filled_entry (by omega)]
  · intro he
    rw [he] at hsmall
    have : (0xFFFF : UInt16).toNat = 65535 := rfl
    omega
  · exact Nat.pos_of_ne_zero fun h0 => S.copies_ne_zero (UInt8.toNat_inj.mp h0)
  · rw [hsmall, S.pages_firstCopy hi]

-- ---------------------------------------------------------------------------
-- A map that was built
-- ---------------------------------------------------------------------------

/-- The pages on the flash: a chunk of an ordinary page of the preloader is one that was
written for that chunk. -/
inductive OnFlash (S : Bootable t info) : Written → Prop
  | firstLoad (p : FlPage) : OnFlash S (.firstLoad p)
  | plr (r j : Nat) (hr : r < 256) (hj : j < S.numOrdinary) :
    OnFlash S (.chunk ⟨S.spare r j, S.ordinary j⟩)
  | uboot (p : DataPage) (h : p.spare.signature = signatureUboot) : OnFlash S (.chunk p)
  | blank : OnFlash S .blank

theorem onFlash_copy (hr : r < 256) (hw : w ∈ S.copy r) : S.OnFlash w := by
  obtain ⟨i, hi⟩ := List.mem_iff_getElem?.mp hw
  have hlt : i < S.total := S.length_copy r ▸ (List.getElem?_eq_some_iff.mp hi).1
  rw [total] at hlt
  by_cases hfl : i < S.numFl
  · obtain ⟨p, hp, -⟩ := S.copy_firstLoad r hfl
    cases hi.symm.trans hp
    exact .firstLoad p
  · obtain ⟨j, rfl⟩ := Nat.exists_eq_add_of_le (Nat.le_of_not_lt hfl)
    have hj : j < S.numOrdinary := by omega
    cases hi.symm.trans (S.copy_ordinary r hj)
    exact .plr r j hr hj

theorem onFlash_flash (hw : w ∈ S.pages ++ List.replicate rest Written.blank) : S.OnFlash w := by
  rcases List.mem_append.mp hw with hw | hw
  · rcases List.mem_append.mp hw with hw | hw
    · obtain ⟨-, -, hw⟩ := List.mem_flatMap.mp hw
      obtain ⟨p, rfl, -⟩ := mem_flPages hw
      exact .firstLoad p
    · rcases List.mem_append.mp hw with hw | hw
      · rcases List.mem_append.mp hw with hw | hw
        · obtain ⟨r, hr, hw⟩ := List.mem_flatMap.mp hw
          have hcopies := info.copies.toNat_lt
          refine onFlash_copy (r := r) (lt_trans (List.mem_range.mp hr) hcopies) ?_
          rw [copy, S.board_pageSize]
          exact hw
        · rw [List.eq_of_mem_replicate hw]
          exact .blank
      · obtain ⟨ubt, -, hw⟩ : ∃ ubt, S.p.ubt = some ubt ∧
            w ∈ ubtPages info.target.pageSize info.target.copies ubt := by
          cases hu : S.p.ubt with
          | none => simp [ubtArea, hu] at hw
          | some ubt => exact ⟨ubt, rfl, by simpa [ubtArea, hu] using hw⟩
        obtain ⟨r, -, hw⟩ := List.mem_flatMap.mp hw
        obtain ⟨-, -, rfl⟩ := List.mem_map.mp hw
        exact .uboot _ rfl
  · rw [List.eq_of_mem_replicate hw]
    exact .blank

theorem slot_blank : (S.reads chip .blank).slot? = none := by
  have hfl : isPlrFirstLoadPart (S.reads chip .blank).fl ≠ 1#32 := by
    change isPlrFirstLoadPart ⟨erasedSts, erasedSts, 0xFFFFFFFF, 0xFFFF⟩ ≠ 1#32
    decide
  have hsig : (S.reads chip .blank).oob.signature ≠ signaturePlr := by
    change onesOob.signature ≠ signaturePlr
    decide
  rw [PlrPageRead.slot?, if_neg hfl, if_neg fun h => hsig h.2]

theorem OnFlash.of_announces (hw : S.OnFlash w) (h : (S.reads chip w).Announces) :
    ∃ j < S.numOrdinary, ¬S.Mistaken chip j := by
  obtain ⟨hfl, -, hsig⟩ := h
  cases hw with
  | firstLoad p => exact absurd hsig (by change onesOob.signature ≠ signaturePlr; decide)
  | plr r j hr hj => exact ⟨j, hj, hfl⟩
  | uboot p hp =>
    have hother : p.spare.signature = signaturePlr := hsig
    rw [hp] at hother
    exact absurd hother (by decide)
  | blank => exact absurd hsig (by change onesOob.signature ≠ signaturePlr; decide)

theorem exists_announces {ps : List PlrPageRead} (h : announced ps ≠ 0) : ∃ p ∈ ps, p.Announces := by
  induction ps with
  | nil => exact absurd rfl h
  | cons p ps ih =>
    rw [announced] at h
    split at h
    next hp => exact ⟨p, List.mem_cons_self, hp.1⟩
    next =>
      obtain ⟨q, hq, ha⟩ := ih h
      exact ⟨q, List.mem_cons_of_mem p hq, ha⟩

theorem Boots.announced (h : S.Boots chip rest) : ∃ j < S.numOrdinary, ¬S.Mistaken chip j := by
  obtain ⟨s, hs, -⟩ := h
  obtain ⟨s₁, x, -, hx⟩ := (Scan.run_eq_iff rfl).mp (nsuInit_eq_zero.mp hs)
  obtain ⟨hcnt, hpos⟩ := mapPass_ret_zero hx
  have hne : Nand.announced (S.flash chip rest) ≠ 0 := by
    rw [← nsuInit_totalNumOfChunk hs]
    omega
  obtain ⟨p, hp, ha⟩ := exists_announces hne
  obtain ⟨w, hw, rfl⟩ := List.mem_map.mp hp
  exact (onFlash_flash hw).of_announces ha

/-- The entry of a mistaken page's chunk leads to a copy of that page, so the page asked
for that slot. -/
theorem Boots.own (h : S.Boots chip rest) (hsize : S.pages.length ≤ 65536)
    (hj : j < S.numOrdinary) (hm : S.Mistaken chip j) :
    (chip.asFirstLoad (S.ordinary j)).pageIndex.toNat = S.numFl + j := by
  obtain ⟨s, hs, hall⟩ := h
  obtain ⟨e, r, he, hne, hr, hpage⟩ := hall (S.numFl + j) (Nat.add_lt_add_left hj _)
  obtain ⟨p, a, hp, hslot, rfl⟩ := nsuInit_sourced hs _ e he hne
  rw [flash, List.getElem?_map, Option.map_eq_some_iff] at hp
  obtain ⟨w, hw, rfl⟩ := hp
  by_cases ha : a < S.pages.length
  · have haddr : (UInt16.ofNat a).toNat = a := by
      rw [UInt16.toNat_ofNat', Nat.mod_eq_of_lt (by omega)]
    have hcopies := info.copies.toNat_lt
    rw [List.getElem?_append_left ha] at hw
    rw [haddr, hw, S.copy_ordinary r hj] at hpage
    cases hpage
    have hasked := S.slot_ordinary chip (by omega : r < 256) hj
    rw [if_pos hm] at hasked
    exact Option.some.inj (hasked.symm.trans hslot)
  · rw [List.getElem?_append_right (by omega)] at hw
    rw [List.eq_of_mem_replicate (List.mem_of_getElem? hw)] at hslot
    exact absurd (slot_blank.symm.trans hslot) (by simp)

/-- In a single copy the number of chunks may only be announced by the last page when the
tree takes two pages. -/
theorem Boots.counted (h : S.Boots chip rest)
    (hown : ∀ j < S.numOrdinary, S.Mistaken chip j →
      (chip.asFirstLoad (S.ordinary j)).pageIndex.toNat = S.numFl + j)
    (hc : info.copies = 1) (htwo : 1024 < S.p.fdtSize) (hj : j + 1 < S.numOrdinary) :
    S.Mistaken chip j := by
  by_contra hm
  have hfront : S.front = 2 := by
    have hfits := S.tree_fits
    rw [front, treeCount, show info.target.copies = info.copies from rfl, hc]
    change 1 * ((S.p.fdtSize + 1024 - 1) / 1024) = 2
    omega
  have hlast : S.GivesUp chip (S.total - 2) :=
    ⟨hc, ⟨j, by omega, hm, by rw [total]; omega⟩, by omega⟩
  classical
  let k := Nat.find (⟨_, hlast⟩ : ∃ k, S.GivesUp chip k)
  have hk : S.GivesUp chip k := Nat.find_spec _
  have hle : k ≤ S.total - 2 := Nat.find_min' _ hlast
  have hno : ∀ i < k, ¬S.GivesUp chip i := fun i hi => Nat.find_min _ hi
  have htotal : j + 1 < S.total := lt_of_lt_of_le hj (Nat.le_add_left _ _)
  obtain ⟨s, w, hw, hs, hcnt, hret⟩ := nsuInit_at (by omega : k < S.total) hown hno rest
  obtain ⟨s', hfoot⟩ := hs.foot_ret hw hcnt hk
  obtain ⟨s₀, hs₀, -⟩ := h
  have hend := hret (-2, s') (by rw [if_neg (by omega)]; exact hfoot)
  cases hend.symm.trans hs₀

theorem Boots.firstCopyFound (h : S.Boots chip rest) (hsize : S.pages.length ≤ 65536) :
    S.FirstCopyFound chip where
  own _ hj hm := h.own hsize hj hm
  announced := h.announced
  counted hc htwo _ hj := h.counted (fun _ => h.own hsize) hc htwo hj

/-- The pages on the flash are the file the tool has written, and when the map finds the
preloader in them. The converse is for outputs whose pages all have an address of 16 bits, as the
entries of the map do. -/
theorem boots_iff (S : Bootable t info) (chip : Chip) (rest : Nat) :
    t.doImgProcess info =
        .ok (S.pages.flatMap (Written.bytes t.encode info.target.pageSize)) ∧
      (S.FirstCopyFound chip → S.Boots chip rest) ∧
      (S.pages.length ≤ 65536 → (S.Boots chip rest ↔ S.FirstCopyFound chip)) :=
  ⟨S.output, fun h => h.boots rest,
    fun hsize => ⟨fun h => h.firstCopyFound hsize, fun h => h.boots rest⟩⟩

end Bootable

-- ---------------------------------------------------------------------------
-- A single copy
-- ---------------------------------------------------------------------------

def twoPageFit : Fdt.Tree where
  before := 0
  body := .node (Fdt.ascii "images")
    (.node (Fdt.ascii "preloader") (.prop 0 [0, 0, 8, 152] (.prop 10 [0, 0, 0, 0] .done))
      (.node (Fdt.ascii "uboot")
        (.prop 0 [0, 0, 0, 1] (.prop 10 [0, 0, 8, 152] (.prop 22 (List.replicate 128 0) .done)))
        .done)) .done
  after := 0
  strings := Fdt.ascii "data-size" ++ [0] ++ Fdt.ascii "data-offset" ++ [0] ++ Fdt.ascii "sign" ++
    List.replicate 700 0
  wellFormed := by decide +kernel
  sized := by decide +kernel

def longPlr : List UInt8 :=
  List.replicate 32 0 ++ wordBytes signaturePlrFl ++ List.replicate 24 0 ++ wordBytes 64 ++
    List.replicate 2136 0

def twoPageTool : Tool where
  input := (flatten twoPageFit).rightpad (tagAlign (flatten twoPageFit).length) 0 ++ longPlr ++ [2]
  sign _ _ := Vector.replicate 64 0
  encode _ _ := Vector.replicate 10 0
  fdtPtr := 0
  junk _ := 0

def singleCopy : CryptoInfo := ⟨0, cryptoNandDevice, 0, 1, Vector.replicate 32 0, Vector.replicate 64 0⟩

def okAnd {ε α : Type} (x : Except ε α) (f : α → Bool) : Bool :=
  match x with
  | .ok a => f a
  | .error _ => false

theorem okAnd_iff {ε α : Type} {x : Except ε α} {f : α → Bool} :
    okAnd x f = true ↔ ∃ a, x = .ok a ∧ f a = true := by
  cases x with
  | ok a => simp [okAnd]
  | error e => simp [okAnd]

def runFinds (t : Tool) (info : CryptoInfo) : Bool :=
  okAnd (t.prepare info.target) fun p =>
    okAnd (setpropPathVal p.fdt p.fdtSize ubtPath signProp
      (cryptoHeader info p.signPtr (t.sign p.pimg info.signSk))) fun _ =>
      decide (1024 < p.fdtSize ∧ p.fdtSize ≤ 2048 ∧ p.plr.length = 2200 ∧
        getFirstLoadSignature p.plr = signaturePlrFl ∧ getFirstLoadBytes p.plr = 64)

theorem twoPageTool_finds : runFinds twoPageTool singleCopy = true := by
  decide +kernel

section SingleCopy

variable {t : Tool} {info : CryptoInfo}

theorem Bootable.of_runFinds (hd : info.dt = cryptoNandDevice) (hc : info.copies ≠ 0)
    (hps : info.target.pageSize = 2048) (h : runFinds t info = true) :
    ∃ S : Bootable t info, 1024 < S.p.fdtSize ∧ S.numOrdinary = 2 := by
  obtain ⟨p, hp, h⟩ := okAnd_iff.mp h
  obtain ⟨fdt, hs, h⟩ := okAnd_iff.mp h
  obtain ⟨htwo, hfits, hlen, hsig, hfirst⟩ := of_decide_eq_true h
  have hplr : PlrImage p.plr := ⟨by omega, hsig, by omega⟩
  have htable : roundToFlPage (getFirstLoadBytes p.plr) +
      roundToPage 2048 (p.plr.length - getFirstLoadBytes p.plr) ≤ 80 := by
    rw [hlen, hfirst]
    decide
  have hord : roundToPage 2048 (p.plr.length - getFirstLoadBytes p.plr) = 2 := by
    rw [hlen, hfirst]
    decide
  exact ⟨⟨⟨p, fdt, hd, hc, hp, hs, hplr⟩, ⟨2048, 0, 0, 80, .inl rfl⟩, hps.symm, rfl, hfits,
    htable⟩, htwo, hord⟩

theorem Bootable.not_mistaken (S : Bootable t info) (j : Nat) : ¬ S.Mistaken strictChip j :=
  show ¬ isPlrFirstLoadPart (strictChip.asFirstLoad fun _ => 0) = 1#32 by decide

end SingleCopy

/-- A single copy behind a tree of two pages is not found. -/
theorem Bootable.twoPages_not_boots : ∃ S : Bootable twoPageTool singleCopy,
    ∀ rest, ¬ S.Boots strictChip rest := by
  have hrun : ∃ S : Bootable twoPageTool singleCopy, 1024 < S.p.fdtSize ∧ S.numOrdinary = 2 :=
    Bootable.of_runFinds rfl (by decide) rfl twoPageTool_finds
  obtain ⟨S, htwo, hord⟩ := hrun
  refine ⟨S, fun rest h => ?_⟩
  have hlast : 0 + 1 < S.numOrdinary := by
    rw [hord]
    decide
  exact S.not_mistaken 0 (h.counted (fun j _ h => absurd h (S.not_mistaken j)) rfl htwo hlast)

end BismarckPreloader.Authbch
