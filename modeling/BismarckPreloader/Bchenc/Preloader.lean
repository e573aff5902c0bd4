import BismarckPreloader.Nand.Written

/-!
# The preloader in an image of `bchenc`

`write_out_plr` writes the copies of a preloader as pages. The first-load part is read 1024
bytes at a time, and a block whose bytes add up to zero gets no page: the page index stays
where it is while the file is read on. `stored_iff` says for which files page index and
content stay aligned.

`-psz` takes two page sizes. A division by a `-cpb` of zero and errors of `read` and `write`
are not modelled.
-/

namespace BismarckPreloader.Bchenc

open Nand

structure PlrOptions where
  pageSize : Nat
  supported : pageSize = 2048 ∨ pageSize = 4096
  pagePerBlock : Nat
  numPlr : UInt32
  checkPlrSignature : Bool
  defaultFirstLoadByte : UInt32

inductive PlrError where
  | uninitialised
  | wrongSignature
  deriving DecidableEq, Repr

def wordOf (file : List UInt8) (off : Nat) : UInt32 :=
  packWord (file.getD off 0) (file.getD (off + 1) 0) (file.getD (off + 2) 0) (file.getD (off + 3) 0)

def plrFlSignature (file : List UInt8) : UInt32 := wordOf file 0x20

def sizeOfPlrLoadFirstly (file : List UInt8) : UInt32 := wordOf file 0x3C

def flDataSizePerPage : Nat := 1024

theorem flDataSizePerPage_pos : 0 < flDataSizePerPage := Nat.succ_pos 1023

theorem length_drop_page {file : List UInt8} (h : ¬file.length < flDataSizePerPage) :
    (file.drop flDataSizePerPage).length < file.length := by
  rw [List.length_drop]
  exact Nat.sub_lt (lt_of_lt_of_le flDataSizePerPage_pos (Nat.le_of_not_lt h))
    flDataSizePerPage_pos

def roundToFlPage (n : UInt32) : UInt32 := (n + 1024 - 1) / 1024

def roundToPage (pageSize : Nat) (n : UInt32) : UInt32 :=
  (n + UInt32.ofNat pageSize - 1) / UInt32.ofNat pageSize

def charVal (c : UInt8) : UInt32 := UInt32.ofInt c.toInt8.toInt

@[irreducible] def flValue (data : Nat → UInt8) : UInt32 :=
  (List.range 512).foldl (fun v i => v + charVal (data i) + charVal (data (512 + i))) 0

def flPage (numOfFlPage cn : Nat) (data : Nat → UInt8) : Written :=
  .firstLoad ⟨signaturePlrFl, UInt16.ofNat cn, UInt16.ofNat numOfFlPage, data⟩

def flEmit (numOfFlPage cn : Nat) (data : Nat → UInt8) : List Written :=
  if flValue data ≠ 0 then [flPage numOfFlPage cn data] else []

def flNext (cn : Nat) (data : Nat → UInt8) : Nat := if flValue data ≠ 0 then cn + 1 else cn

/-- The loop of the first-load part from page index `cn` on: the pages, the index it ends
with and what is left of the file. -/
def flLoop (numOfFlPage cn : Nat) (file : List UInt8) : List Written × Nat × List UInt8 :=
  if cn = numOfFlPage then ([], cn, file)
  else
    let data := onOnes (file.take flDataSizePerPage)
    let pages := flEmit numOfFlPage cn data
    let cn := flNext cn data
    -- the second sector was not read in full
    if _h : file.length < flDataSizePerPage then (pages, cn, file.drop flDataSizePerPage)
    else
      let (more, cn, file) := flLoop numOfFlPage cn (file.drop flDataSizePerPage)
      (pages ++ more, cn, file)
termination_by file.length
decreasing_by exact length_drop_page _h

def plrSpare (o : PlrOptions) (firstLoadBytes : UInt32) (file : List UInt8) (chunkNum : UInt32) :
    Spare where
  bbi := 0xFFFF
  reserved := 0xFFFF
  signature := signaturePlr
  chunkNum := chunkNum
  startupNum := roundToFlPage firstLoadBytes
  totalChunk := roundToPage o.pageSize (UInt32.ofNat file.length - firstLoadBytes) +
    roundToFlPage firstLoadBytes
  numCopy := o.numPlr

def plrCopy (o : PlrOptions) (firstLoadBytes : UInt32) (file : List UInt8) (r : Nat) :
    List Written :=
  let (fl, cn, rest) := flLoop (roundToFlPage firstLoadBytes).toNat 0 file
  fl ++ chunkPages o.pageSize (plrSpare o firstLoadBytes file)
    (UInt32.ofNat r <<< 16 ||| UInt32.ofNat cn) rest

def blockPadding (pagePerBlock written : Nat) : List Written :=
  List.replicate ((pagePerBlock - written % pagePerBlock) % pagePerBlock) .blank

/-- `write_out_plr`: the pages it appends to an empty output. -/
def writeOutPlr (o : PlrOptions) (file : List UInt8) : Except PlrError (List Written) :=
  if file.length < 0x40 then .error .uninitialised
  else
    let correct := plrFlSignature file = signaturePlrFl
    if ¬correct ∧ o.checkPlrSignature then .error .wrongSignature
    else
      let firstLoadBytes := if correct then sizeOfPlrLoadFirstly file else o.defaultFirstLoadByte
      let pages := (List.range o.numPlr.toNat).flatMap (plrCopy o firstLoadBytes file)
      .ok (pages ++ blockPadding o.pagePerBlock pages.length)

def blockOf (file : List UInt8) (i : Nat) : Nat → UInt8 :=
  onOnes ((file.drop (flDataSizePerPage * i)).take flDataSizePerPage)

/-- A file with a correct signature and a first-load part of whole pages inside it. -/
structure PlrFile where
  bytes : List UInt8
  numFl : Nat
  signature : plrFlSignature bytes = signaturePlrFl
  firstLoad : (sizeOfPlrLoadFirstly bytes).toNat = 1024 * numFl
  numFl_pos : 0 < numFl
  inside : 1024 * numFl ≤ bytes.length

namespace PlrFile

variable (f : PlrFile) (o : PlrOptions)

def numOrdinary : Nat := (f.bytes.length - 1024 * f.numFl + o.pageSize - 1) / o.pageSize

/-- The pages of one copy: every block of the first-load part in a page with its index,
and the rest of the file in pages that count on. -/
structure IsCopy (pages : List Written) : Prop where
  length : pages.length = f.numFl + f.numOrdinary o
  firstLoad : ∀ i < f.numFl, ∃ p, pages[i]? = some (.firstLoad p) ∧
    p.signature = signaturePlrFl ∧
    p.pageIndex.toNat = i ∧ p.totalNumPage.toNat = f.numFl ∧
    ∀ k < 1024, some (p.data k) = f.bytes[1024 * i + k]?
  ordinary : ∀ j < f.numOrdinary o, ∃ p, pages[f.numFl + j]? = some (.chunk p) ∧
    p.spare.signature = signaturePlr ∧ p.spare.oob.idxChunk.toNat = f.numFl + j ∧
    p.spare.totalChunk.toNat = f.numFl + f.numOrdinary o ∧
    ∀ k < o.pageSize, p.data k = f.bytes.getD (1024 * f.numFl + (o.pageSize * j + k)) 0xFF

def Stored : Prop :=
  ∃ copies blanks, writeOutPlr o f.bytes = .ok (List.flatten copies ++ List.replicate blanks .blank) ∧
    copies.length = o.numPlr.toNat ∧ ∀ c ∈ copies, f.IsCopy o c

/-- The condition under which a file with at least one copy is stored. -/
structure Aligned : Prop where
  nonzero : ∀ i < f.numFl, flValue (blockOf f.bytes i) ≠ 0
  index : f.numFl < 2 ^ 16
  chunk : f.numFl + f.numOrdinary o ≤ 2 ^ 16

end PlrFile

-- ---------------------------------------------------------------------------
-- The first-load loop
-- ---------------------------------------------------------------------------

theorem flValue_congr (h : ∀ k < 1024, data k = data' k) : flValue data = flValue data' := by
  unfold flValue
  refine List.foldl_ext _ _ _ fun v i hi => ?_
  have hlt := List.mem_range.mp hi
  rw [h i (by omega), h (512 + i) (by omega)]

theorem flValue_of_mem_flEmit (h : .firstLoad p ∈ flEmit n cn d) : flValue p.data ≠ 0 := by
  unfold flEmit at h
  split at h
  next hne =>
    cases List.mem_singleton.mp h
    exact hne
  next => cases h

theorem chunk_notMem_flEmit : Written.chunk p ∉ flEmit n cn data := by
  unfold flEmit
  split
  · exact fun h => nomatch List.mem_singleton.mp h
  · exact List.not_mem_nil

theorem flValue_of_mem_flLoop (h : .firstLoad p ∈ (flLoop n cn file).1) : flValue p.data ≠ 0 := by
  fun_induction flLoop n cn file with
  | case1 => cases h
  | case2 => exact flValue_of_mem_flEmit h
  | case3 cn file _ data pages cn' _ more cn'' file' hmore ih =>
    rcases List.mem_append.mp h with h | h
    · exact flValue_of_mem_flEmit h
    · exact ih (by rwa [hmore])

theorem flLoop_eq (h : ∀ i < n, flValue (blockOf file i) ≠ 0)
    (hin : flDataSizePerPage * n ≤ file.length) (hcn : cn ≤ n) :
    flLoop n cn (file.drop (flDataSizePerPage * cn)) =
      ((List.range' cn (n - cn)).map (fun i => flPage n i (blockOf file i)), n,
        file.drop (flDataSizePerPage * n)) := by
  induction hk : n - cn generalizing cn with
  | zero =>
    obtain rfl : cn = n := by omega
    rw [flLoop, if_pos rfl]
    rfl
  | succ k ih =>
    have hlong : ¬(file.drop (flDataSizePerPage * cn)).length < flDataSizePerPage := by
      have hblock := Nat.mul_le_mul_left flDataSizePerPage (by omega : cn + 1 ≤ n)
      rw [List.length_drop]
      rw [Nat.mul_succ] at hblock
      omega
    have hemit : flEmit n cn (blockOf file cn) = [flPage n cn (blockOf file cn)] :=
      if_pos (h cn (by omega))
    have hnext : flNext cn (blockOf file cn) = cn + 1 := if_pos (h cn (by omega))
    rw [blockOf] at hemit hnext
    rw [flLoop, if_neg (by omega)]
    simp only [dif_neg hlong, hemit, hnext, List.drop_drop]
    rw [← Nat.mul_succ, ih (by omega) (by omega), List.range'_succ, List.map_cons]
    rfl

namespace PlrFile

variable {f : PlrFile} {o : PlrOptions}

theorem roundToFlPage_firstLoad (f : PlrFile) :
    (roundToFlPage (sizeOfPlrLoadFirstly f.bytes)).toNat = f.numFl := by
  have hlt := (sizeOfPlrLoadFirstly f.bytes).toNat_lt
  have hsize := f.firstLoad
  rw [roundToFlPage, UInt32.toNat_div, UInt32.toNat_sub, UInt32.toNat_add, hsize]
  change (2 ^ 32 - 1 + (1024 * f.numFl + 1024) % 2 ^ 32) % 2 ^ 32 / 1024 = f.numFl
  omega

theorem writeOutPlr_eq (f : PlrFile) (o : PlrOptions) :
    writeOutPlr o f.bytes = .ok
      ((List.range o.numPlr.toNat).flatMap (plrCopy o (sizeOfPlrLoadFirstly f.bytes) f.bytes) ++
        blockPadding o.pagePerBlock ((List.range o.numPlr.toNat).flatMap
          (plrCopy o (sizeOfPlrLoadFirstly f.bytes) f.bytes)).length) := by
  have hlen : ¬f.bytes.length < 0x40 := by
    have := f.inside
    have := f.numFl_pos
    omega
  rw [writeOutPlr, if_neg hlen]
  simp only [f.signature, not_true_eq_false, false_and, if_false, if_true]

theorem flValue_of_mem_pages (h : Written.firstLoad p ∈
    (List.range o.numPlr.toNat).flatMap (plrCopy o (sizeOfPlrLoadFirstly f.bytes) f.bytes) ++
      blockPadding o.pagePerBlock n) : flValue p.data ≠ 0 := by
  rcases List.mem_append.mp h with h | h
  · obtain ⟨r, -, h⟩ := List.mem_flatMap.mp h
    rcases List.mem_append.mp h with h | h
    · exact flValue_of_mem_flLoop h
    · obtain ⟨x, -, hx⟩ := List.mem_map.mp h
      cases hx
  · cases List.eq_of_mem_replicate h

-- ---------------------------------------------------------------------------
-- Files that are stored
-- ---------------------------------------------------------------------------

section Aligned

variable (h : f.Aligned o)

include h

theorem plrCopy_eq (r : Nat) :
    plrCopy o (sizeOfPlrLoadFirstly f.bytes) f.bytes r =
      (List.range' 0 f.numFl).map (fun i => flPage f.numFl i (blockOf f.bytes i)) ++
        chunkPages o.pageSize (plrSpare o (sizeOfPlrLoadFirstly f.bytes) f.bytes)
          (UInt32.ofNat r <<< 16 ||| UInt32.ofNat f.numFl) (f.bytes.drop (1024 * f.numFl)) := by
  have hloop := flLoop_eq h.nonzero f.inside (Nat.zero_le f.numFl)
  rw [Nat.mul_zero, List.drop_zero, Nat.sub_zero] at hloop
  rw [plrCopy, f.roundToFlPage_firstLoad, hloop]
  rfl

theorem totalChunk_toNat :
    (roundToPage o.pageSize (UInt32.ofNat f.bytes.length - sizeOfPlrLoadFirstly f.bytes) +
      roundToFlPage (sizeOfPlrLoadFirstly f.bytes)).toNat = f.numFl + f.numOrdinary o := by
  have hin := f.inside
  have hn := h.index
  have hm := h.chunk
  have hps : (UInt32.ofNat o.pageSize).toNat = o.pageSize := by
    rw [UInt32.toNat_ofNat']
    rcases o.supported with hs | hs <;> rw [hs]
  have hlen : f.bytes.length - 1024 * f.numFl ≤ 2 ^ 28 := by
    rw [numOrdinary] at hm
    rcases o.supported with hs | hs <;> rw [hs] at hm <;> omega
  have hrest : (UInt32.ofNat f.bytes.length - sizeOfPlrLoadFirstly f.bytes).toNat =
      f.bytes.length - 1024 * f.numFl := by
    rw [UInt32.toNat_sub, f.firstLoad, UInt32.toNat_ofNat']
    omega
  have hround : (roundToPage o.pageSize
      (UInt32.ofNat f.bytes.length - sizeOfPlrLoadFirstly f.bytes)).toNat = f.numOrdinary o := by
    rw [roundToPage, UInt32.toNat_div, UInt32.toNat_sub, UInt32.toNat_add, hps, hrest]
    change (2 ^ 32 - 1 + (f.bytes.length - 1024 * f.numFl + o.pageSize) % 2 ^ 32) % 2 ^ 32 /
      o.pageSize = f.numOrdinary o
    rw [numOrdinary]
    congr 1
    rcases o.supported with hs | hs <;> rw [hs] <;> omega
  rw [UInt32.toNat_add, hround, f.roundToFlPage_firstLoad]
  omega

omit h in
theorem data_firstLoad (hi : i < f.numFl) (hk : k < 1024) :
    some (blockOf f.bytes i k) = f.bytes[1024 * i + k]? := by
  have hin := f.inside
  have hlt : 1024 * i + k < f.bytes.length := by omega
  rw [blockOf, onOnes, List.getD_eq_getElem?_getD, flDataSizePerPage, List.getElem?_take_of_lt hk,
    List.getElem?_drop, List.getElem?_eq_getElem hlt, Option.getD_some]

omit h in
theorem data_ordinary (hk : k < o.pageSize) :
    onOnes (((f.bytes.drop (1024 * f.numFl)).drop (j * o.pageSize)).take o.pageSize) k =
      f.bytes.getD (1024 * f.numFl + (o.pageSize * j + k)) 0xFF := by
  rw [onOnes, List.getD_eq_getElem?_getD, List.getElem?_take_of_lt hk, List.drop_drop,
    List.getElem?_drop, List.getD_eq_getElem?_getD, Nat.mul_comm j, Nat.add_assoc]

theorem isCopy_plrCopy (r : Nat) :
    f.IsCopy o (plrCopy o (sizeOfPlrLoadFirstly f.bytes) f.bytes r) := by
  have hlen : ((List.range' 0 f.numFl).map fun i => flPage f.numFl i (blockOf f.bytes i)).length =
      f.numFl := by
    rw [List.length_map, List.length_range']
  have hcount : ((f.bytes.drop (1024 * f.numFl)).length + o.pageSize - 1) / o.pageSize =
      f.numOrdinary o := by
    rw [List.length_drop, numOrdinary]
  have hindex := h.index
  have hchunk := h.chunk
  rw [plrCopy_eq h]
  refine ⟨?_, fun i hi => ?_, fun j hj => ?_⟩
  · rw [List.length_append, hlen, chunkPages, List.length_map, List.length_zipIdx, length_pieces,
      hcount]
  · refine ⟨⟨signaturePlrFl, UInt16.ofNat i, UInt16.ofNat f.numFl, blockOf f.bytes i⟩, ?_, rfl,
      ?_, ?_, fun k hk => data_firstLoad hi hk⟩
    · rw [List.getElem?_append_left (by rwa [hlen]), List.getElem?_map,
        List.getElem?_range' hi, Option.map_some, Nat.zero_add, Nat.one_mul]
      rfl
    · rw [UInt16.toNat_ofNat', Nat.mod_eq_of_lt (by omega)]
    · rw [UInt16.toNat_ofNat', Nat.mod_eq_of_lt (by omega)]
  · refine ⟨⟨plrSpare o (sizeOfPlrLoadFirstly f.bytes) f.bytes
      ((UInt32.ofNat r <<< 16 ||| UInt32.ofNat f.numFl) + UInt32.ofNat j),
      onOnes (((f.bytes.drop (1024 * f.numFl)).drop (j * o.pageSize)).take o.pageSize)⟩,
      (List.getElem?_append_right (by omega)).trans ?_, rfl, ?_, totalChunk_toNat h,
      fun k hk => data_ordinary hk⟩
    · rw [hlen, Nat.add_sub_cancel_left]
      exact getElem?_chunkPages (by rwa [hcount])
    · rw [Spare.oob, plrSpare, countOn_toNat r (by omega), UInt16.toNat_ofNat']
      omega

end Aligned

theorem Stored.aligned (h : f.Stored o) (h0 : o.numPlr ≠ 0) : f.Aligned o := by
  obtain ⟨copies, blanks, hout, hlen, hcopies⟩ := h
  obtain ⟨c, rest, rfl⟩ : ∃ c rest, copies = c :: rest := by
    cases copies with
    | nil => exact absurd (UInt32.toNat_inj.mp hlen.symm) h0
    | cons c rest => exact ⟨c, rest, rfl⟩
  have hc := hcopies c List.mem_cons_self
  have hindex : f.numFl < 2 ^ 16 := by
    obtain ⟨p, -, -, -, htotal, -⟩ := hc.firstLoad 0 f.numFl_pos
    rw [← htotal]
    exact p.totalNumPage.toNat_lt
  refine ⟨fun i hi => ?_, hindex, ?_⟩
  · obtain ⟨p, hp, -, -, -, hdata⟩ := hc.firstLoad i hi
    have hmem : Written.firstLoad p ∈ (c :: rest).flatten ++ List.replicate blanks .blank :=
      List.mem_append_left _ (List.mem_append_left _ (List.mem_of_getElem? hp))
    rw [f.writeOutPlr_eq] at hout
    rw [← Except.ok.inj hout] at hmem
    have hsame : flValue p.data = flValue (blockOf f.bytes i) := flValue_congr fun k hk =>
      Option.some.inj ((hdata k hk).trans (data_firstLoad hi hk).symm)
    rw [← hsame]
    exact flValue_of_mem_pages hmem
  · by_cases hm : f.numOrdinary o = 0
    · omega
    · obtain ⟨p, -, -, hidx, -⟩ := hc.ordinary (f.numOrdinary o - 1) (by omega)
      have := p.spare.oob.idxChunk.toNat_lt
      omega

theorem stored_of (h : o.numPlr ≠ 0 → f.Aligned o) : f.Stored o := by
  refine ⟨(List.range o.numPlr.toNat).map (plrCopy o (sizeOfPlrLoadFirstly f.bytes) f.bytes),
    _, f.writeOutPlr_eq o, ?_, ?_⟩
  · rw [List.length_map, List.length_range]
  · intro c hc
    obtain ⟨r, hr, rfl⟩ := List.mem_map.mp hc
    have h0 : o.numPlr ≠ 0 := by
      intro h0
      rw [h0] at hr
      cases hr
    exact isCopy_plrCopy (h h0) r

/-- The copies are stored in order exactly when there are none, or no block of the
first-load part adds up to zero and the counters fit their fields. -/
theorem stored_iff (f : PlrFile) (o : PlrOptions) :
    f.Stored o ↔ o.numPlr = 0 ∨ f.Aligned o := by
  constructor
  · intro h
    by_cases h0 : o.numPlr = 0
    · exact .inl h0
    · exact .inr (h.aligned h0)
  · rintro (h0 | h)
    · exact stored_of fun hne => absurd h0 hne
    · exact stored_of fun _ => h

theorem flValue_zero : flValue (fun _ => 0) = 0 := by
  have hchar : charVal 0 = 0 := rfl
  unfold flValue
  simp only [hchar, UInt32.add_zero]
  exact List.foldl_fixed _

def headBlock : List UInt8 :=
  List.replicate 0x20 0 ++ wordBytes signaturePlrFl ++ List.replicate 0x18 0 ++ wordBytes 2048 ++
    List.replicate 960 0

theorem length_headBlock : headBlock.length = 1024 := by
  simp only [headBlock, List.length_append, List.length_replicate, length_wordBytes]

def zeroBlockBytes : List UInt8 := headBlock ++ List.replicate 1024 0

theorem zeroBlockBytes_length : zeroBlockBytes.length = 2048 := by
  rw [zeroBlockBytes, List.length_append, length_headBlock, List.length_replicate]

theorem zeroBlockBytes_signature : plrFlSignature zeroBlockBytes = signaturePlrFl := by
  decide +kernel

theorem zeroBlockBytes_firstLoad : (sizeOfPlrLoadFirstly zeroBlockBytes).toNat = 1024 * 2 := by
  decide +kernel

def zeroBlock : PlrFile where
  bytes := zeroBlockBytes
  numFl := 2
  signature := zeroBlockBytes_signature
  firstLoad := zeroBlockBytes_firstLoad
  numFl_pos := Nat.succ_pos 1
  inside := zeroBlockBytes_length.ge

def defaultPlrOptions : PlrOptions where
  pageSize := 2048
  supported := supported_2048
  pagePerBlock := 64
  numPlr := 2
  checkPlrSignature := true
  defaultFirstLoadByte := 8192

theorem zeroBlock_not_stored : ¬zeroBlock.Stored defaultPlrOptions := by
  intro h
  refine (h.aligned (by decide)).nonzero 1 (Nat.lt_succ_self 1) ?_
  rw [← flValue_zero]
  refine flValue_congr fun k hk => ?_
  have hblock : (zeroBlockBytes.drop 1024).take 1024 = List.replicate 1024 0 := by
    rw [zeroBlockBytes, List.drop_left' length_headBlock]
    exact List.take_of_length_le (List.length_replicate).le
  change onOnes ((zeroBlockBytes.drop 1024).take 1024) k = 0
  rw [hblock, onOnes, List.getD_eq_getElem?_getD, List.getElem?_replicate, if_pos hk,
    Option.getD_some]

end PlrFile

end BismarckPreloader.Bchenc
