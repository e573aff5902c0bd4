import BismarckPreloader.Onebin.Merge

/-!
# Where the files of a merged image lie

The flash programmer puts chunk `i` of the image into chunk `i` of the flash, so the image
is good when every file begins behind as many chunks as its address says. `keeps_iff` says
for which command lines that holds.

Three things decide it: `generate_onebin` counts from the first file on, the size of a
partition is rounded down, and a file may be longer than its partition by a part of a chunk.
-/

namespace BismarckPreloader.Onebin

open Nand (Encoder ones)

/-- A command line that `check_parameters` accepts. -/
structure Merge where
  params : Params
  encode : Encoder
  given : List ImageFile
  files : List ImageFile
  listed : fileList given = some files
  accepted : checkParameters params files = false

def encoded (p : Params) (encode : Encoder) (f : ImageFile) : List (List UInt8) :=
  (pieces (p.readSize f) f.bytes).map (appendChunk p encode f)

/-- What was written for the files, behind `start` chunks: chunks of full size that begin
with the file's own, every file but the first begins at its address, and none gets into the
next one. -/
structure Placed (p : Params) (encode : Encoder) (start : Nat) (files : List ImageFile)
    (written : List (List (List UInt8))) : Prop where
  length : written.length = files.length
  sized : ∀ chunks ∈ written, ∀ c ∈ chunks, c.length = p.encodedSize
  data : ∀ (i : Nat) f chunks, files[i]? = some f → written[i]? = some chunks →
    encoded p encode f <+: chunks
  begins : ∀ (i : Nat) g, files[i + 1]? = some g →
    start + (written.take (i + 1)).flatten.length = g.address.toNat / p.chunkSize
  apart : ∀ (i : Nat) f g, files[i]? = some f → files[i + 1]? = some g →
    start + (written.take i).flatten.length + (encoded p encode f).length ≤
      g.address.toNat / p.chunkSize

/-- `generate_onebin` comes to an end, and when it returns 0 the files are in the order of
their addresses and in their places. -/
def Merge.Keeps (m : Merge) : Prop :=
  ∃ enough written, generateOnebin m.params m.encode m.files = .ok (enough, written) ∧
    (enough = true → m.files.Pairwise (·.address < ·.address) ∧ m.files.Perm m.given ∧
      Placed m.params m.encode 0 m.files written)

section Condition

variable (p : Params)

def fileChunks (f : ImageFile) : Nat := (f.bytes.length + p.readSize f - 1) / p.readSize f

/-- The chunks between two addresses as the tool rounds them: sectors on NOR, whole blocks
on NAND. -/
def partitionChunks (f g : ImageFile) : UInt32 := match p.flashType with
  | .nor => (g.address - f.address) / UInt32.ofNat norSectorSize
  | .nand => (g.address - f.address) / p.blockSize * p.chunkPerBlock

def TooLong (f g : ImageFile) : Prop :=
  partitionChunks p f g ≠ noLimitedChunks ∧
    (partitionChunks p f g).toNat < f.bytes.length / p.readSize f

def takenChunks (f g : ImageFile) : Nat :=
  if partitionChunks p f g = noLimitedChunks then
    fileChunks p f + paddingChunks p f noLimitedChunks (fileChunks p f)
  else max (fileChunks p f) (partitionChunks p f g).toNat

def LaidOut (f : ImageFile) : Prop :=
  p.Encodes f → p.nandPageType = .unknown →
    ∀ x ∈ pieces (p.readSize f) f.bytes, fillUp p.chunkSize x = ones p.chunkSize

def Refused : List ImageFile → Prop
  | f :: g :: files => TooLong p f g ∨ Refused (g :: files)
  | _ => False

def Exact : Nat → List ImageFile → Prop
  | start, f :: g :: files =>
    LaidOut p f ∧ start + takenChunks p f g = g.address.toNat / p.chunkSize ∧
      Exact (g.address.toNat / p.chunkSize) (g :: files)
  | _, [f] => LaidOut p f ∧ (f.bytes ≠ [] → p.chunkPerBlock ≠ 0)
  | _, [] => True

end Condition

/-- A block has a size, and unless a file is refused the files take exactly their space. -/
structure Merge.Regular (m : Merge) : Prop where
  block : m.params.flashType = .nand → 2 ≤ m.files.length → m.params.blockSize ≠ 0
  exact : ¬Refused m.params m.files → Exact m.params 0 m.files

-- ---------------------------------------------------------------------------
-- One file
-- ---------------------------------------------------------------------------

section File

variable {p : Params} {encode : Encoder}

theorem fileLoop_enough (hsize : 0 < size)
    (h : total = noLimitedChunks ∨ cc + l.length / size ≤ total.toNat) :
    fileLoop append size total cc (pieces size l) = (true, (pieces size l).map append) := by
  induction l using pieces_induction hsize generalizing cc with
  | nil => rw [pieces_nil hsize, fileLoop, List.map_nil]
  | step l hl ih =>
    rw [pieces_of_ne_nil hsize hl, fileLoop, List.length_take]
    by_cases hfull : size ≤ l.length
    · have hdiv : l.length / size = (l.drop size).length / size + 1 := by
        rw [List.length_drop, Nat.div_eq_sub_div hsize hfull]
      rw [hdiv, Nat.add_comm _ 1, ← Nat.add_assoc] at h
      have hroom : ¬(total ≠ noLimitedChunks ∧ total.toNat < cc + 1) := by
        rintro ⟨hne, hlt⟩
        exact absurd (le_trans (Nat.le_add_right _ _) (h.resolve_left hne)) (by omega)
      rw [if_neg (by omega), if_neg hroom, ih h, List.map_cons]
    · rw [if_pos (by omega), List.drop_eq_nil_of_le (by omega), pieces_nil hsize]
      rfl

theorem fileLoop_tooLong (append : List UInt8 → List UInt8) (hsize : 0 < size)
    (hne : total ≠ noLimitedChunks)
    (hcc : cc ≤ total.toNat) (h : total.toNat < cc + l.length / size) :
    (fileLoop append size total cc (pieces size l)).1 = false := by
  induction l using pieces_induction hsize generalizing cc with
  | nil =>
    rw [List.length_nil, Nat.zero_div] at h
    omega
  | step l hl ih =>
    have hfull : size ≤ l.length := by
      by_contra hlt
      rw [Nat.div_eq_of_lt (by omega)] at h
      omega
    have hdiv : l.length / size = (l.drop size).length / size + 1 := by
      rw [List.length_drop, Nat.div_eq_sub_div hsize hfull]
    rw [pieces_of_ne_nil hsize hl, fileLoop, List.length_take, if_neg (by omega)]
    split
    next => rfl
    next hroom =>
      rw [hdiv, Nat.add_comm _ 1, ← Nat.add_assoc] at h
      exact ih (Nat.le_of_not_lt fun hlt => hroom ⟨hne, hlt⟩) h

def segment (p : Params) (encode : Encoder) (f : ImageFile) (total : UInt32) : List (List UInt8) :=
  encoded p encode f ++ List.replicate (paddingChunks p f total (fileChunks p f))
    (appendChunk p encode f (ones (p.readSize f)))

theorem length_encoded (f : ImageFile) : (encoded p encode f).length = fileChunks p f := by
  rw [encoded, List.length_map, length_pieces, fileChunks]

theorem fileWriteOut_enough (hsize : 0 < p.readSize f)
    (hb : total = noLimitedChunks → f.bytes ≠ [] → p.chunkPerBlock ≠ 0)
    (h : total = noLimitedChunks ∨ f.bytes.length / p.readSize f ≤ total.toNat) :
    fileWriteOut p encode f total = .ok (true, segment p encode f total) := by
  rw [fileWriteOut, if_neg fun hc => hb hc.1 hc.2.1 hc.2.2, fileLoop_enough hsize (by simpa using h)]
  simp only [if_true, List.length_map, length_pieces]
  rfl

theorem fileWriteOut_tooLong (encode : Encoder) (hsize : 0 < p.readSize f) (hne : total ≠ noLimitedChunks)
    (h : total.toNat < f.bytes.length / p.readSize f) :
    ∃ chunks, fileWriteOut p encode f total = .ok (false, chunks) := by
  have hloop := fileLoop_tooLong (appendChunk p encode f) hsize hne (Nat.zero_le _)
    (by rwa [Nat.zero_add])
  rw [fileWriteOut, if_neg fun hc => hne hc.1]
  dsimp only
  rw [if_neg (by rw [hloop]; exact Bool.false_ne_true)]
  exact ⟨_, rfl⟩

theorem length_segment (encode : Encoder) (f g : ImageFile) :
    (segment p encode f (partitionChunks p f g)).length = takenChunks p f g := by
  rw [segment, List.length_append, length_encoded, List.length_replicate, takenChunks]
  split
  next h => rw [h]
  next h =>
    rw [paddingChunks, if_neg h]
    omega

-- ---------------------------------------------------------------------------
-- The size of a chunk
-- ---------------------------------------------------------------------------

theorem length_fillUp (h : x.length ≤ n) : (fillUp n x).length = n := by
  rw [fillUp, List.length_rightpad]
  omega

theorem length_unitOf (h : (i + 1) * n ≤ buf.length) : (unitOf n buf i).length = n := by
  rw [Nat.succ_mul] at h
  rw [unitOf, List.length_take, List.length_drop]
  omega

theorem length_swapBbi (data oob : List UInt8) :
    (swapBbi p data oob).1.length = data.length ∧ (swapBbi p data oob).2.length = oob.length := by
  unfold swapBbi
  split
  · exact ⟨List.length_set, List.length_set⟩
  · exact ⟨rfl, rfl⟩

theorem length_flatMap_range (n : Nat) {g : Nat → List UInt8} (h : ∀ i < n, (g i).length = k) :
    ((List.range n).flatMap g).length = n * k := by
  rw [List.length_flatMap, List.map_congr_left fun i hi => h i (List.mem_range.mp hi),
    List.map_const', List.sum_replicate_nat, List.length_range]

/-- On NAND a chunk is whole sectors with their tags and syndromes. -/
structure Params.Sectors (p : Params) : Prop where
  data : p.chunkSize / p.pageSize * p.pageSize = p.chunkSize
  pos : 0 < p.chunkSize
  ecc : p.eccSize = 10

theorem sectors_of_nand (hcs : p.chunkSize = 512 ∨ p.chunkSize = 2048 ∨ p.chunkSize = 4096)
    (hn : p.flashType = .nand) : p.Sectors := by
  refine ⟨?_, ?_, ?_⟩
  · rw [Params.pageSize, hn]
    rcases hcs with h | h | h <;> rw [h] <;> rfl
  · omega
  · rw [Params.eccSize, hn]

/-- An encoded chunk has its full size unless the layout of the spare area is not known. -/
theorem length_appendEccOneChunk (hs : p.Sectors) (hx : x.length ≤ p.chunkSize) :
    (appendEccOneChunk p encode x).length = p.encodedSize ↔
      (p.nandPageType = .unknown → fillUp p.chunkSize x = ones p.chunkSize) := by
  have hlen : (fillUp p.chunkSize x).length = p.chunkSize := length_fillUp hx
  have hsum : p.chunkSize + p.chunkSize / p.pageSize * p.oobSize +
      p.chunkSize / p.pageSize * p.eccSize = p.encodedSize := by
    rw [Params.encodedSize, Nat.mul_add, Nat.add_assoc]
  have hpos := hs.pos
  unfold appendEccOneChunk
  dsimp only
  split
  next hones =>
    rw [List.length_append, List.length_append, Nand.length_ones, Nand.length_ones, hlen, hsum]
    simp [hones]
  next hne =>
    obtain ⟨hd, ho⟩ := length_swapBbi (p := p) (fillUp p.chunkSize x)
      (ones (p.chunkSize / p.pageSize * p.oobSize))
    rw [hlen] at hd
    rw [Nand.length_ones] at ho
    have hecc : ∀ data oob : List UInt8, (encode data oob).toList.length = p.eccSize := by
      intro data oob
      rw [Vector.length_toList, hs.ecc]
    split
    next ht =>
      rw [length_flatMap_range (k := p.pageSize + p.oobSize + p.eccSize) _ fun i hi => ?_]
      · simp only [ht, reduceCtorEq, false_imp_iff, iff_true]
        rw [← hsum, Nat.mul_add, Nat.mul_add, hs.data]
      · rw [List.length_append, List.length_append, hecc, length_unitOf, length_unitOf]
        · rw [ho]
          exact Nat.mul_le_mul_right _ hi
        · rw [hd]
          exact le_of_le_of_eq (Nat.mul_le_mul_right _ hi) hs.data
    next ht =>
      rw [List.length_append, List.length_append, length_flatMap_range _ fun i _ => hecc _ _, hd, ho,
        hsum]
      simp [ht]
    next ht =>
      have hzero : ¬0 = p.encodedSize := by
        rw [Params.encodedSize]
        omega
      simp [ht, hne, hzero]

section Sized

variable (hcs : p.chunkSize = 512 ∨ p.chunkSize = 2048 ∨ p.chunkSize = 4096)

include hcs

theorem encodedSize_pos : 0 < p.encodedSize := by
  rw [Params.encodedSize]
  omega

theorem readSize_pos (f : ImageFile) : 0 < p.readSize f := by
  unfold Params.readSize
  split
  · omega
  · exact encodedSize_pos hcs

theorem length_appendChunk (hx : x.length ≤ p.readSize f) :
    (appendChunk p encode f x).length = p.encodedSize ↔
      (p.Encodes f → p.nandPageType = .unknown → fillUp p.chunkSize x = ones p.chunkSize) := by
  unfold Params.readSize at hx
  unfold appendChunk
  split
  next he =>
    rw [if_pos he] at hx
    rw [length_appendEccOneChunk (sectors_of_nand hcs he.1) hx]
    simp [he]
  next he =>
    rw [if_neg he] at hx
    rw [appendRawOneChunk, length_fillUp hx]
    simp [he]

theorem sized_segment_iff (encode : Encoder) (f : ImageFile) (total : UInt32) :
    (∀ c ∈ segment p encode f total, c.length = p.encodedSize) ↔ LaidOut p f := by
  have hones : (appendChunk p encode f (ones (p.readSize f))).length = p.encodedSize := by
    rw [length_appendChunk hcs (Nand.length_ones _).le]
    intro he _
    rw [Params.readSize, if_pos he, fillUp, List.rightpad, Nand.length_ones, Nat.sub_self,
      List.replicate_zero, List.append_nil]
  constructor
  · intro h he ht x hx
    have hc := h _ (List.mem_append_left _ (List.mem_map_of_mem hx))
    exact (length_appendChunk hcs (length_le_of_mem_pieces hx)).mp hc he ht
  · intro h c hc
    rcases List.mem_append.mp hc with hc | hc
    · obtain ⟨x, hx, rfl⟩ := List.mem_map.mp hc
      exact (length_appendChunk hcs (length_le_of_mem_pieces hx)).mpr fun he ht => h he ht x hx
    · rw [List.eq_of_mem_replicate hc]
      exact hones

end Sized

-- ---------------------------------------------------------------------------
-- All files
-- ---------------------------------------------------------------------------

theorem placed_singleton : Placed p encode start [f] [chunks] ↔
    (∀ c ∈ chunks, c.length = p.encodedSize) ∧ encoded p encode f <+: chunks := by
  constructor
  · intro h
    exact ⟨h.sized chunks List.mem_cons_self, h.data 0 f chunks rfl rfl⟩
  · rintro ⟨hsized, hdata⟩
    refine ⟨rfl, ?_, ?_, fun i g h => ?_, fun i _ g _ h => ?_⟩
    · intro chunks' hmem
      rwa [List.mem_singleton.mp hmem]
    · rintro (_ | i) f' chunks' hf hc
      · cases hf
        cases hc
        exact hdata
      · cases hf
    · cases h
    · cases h

theorem placed_cons : Placed p encode start (f :: g :: files) (chunks :: written) ↔
    (∀ c ∈ chunks, c.length = p.encodedSize) ∧ encoded p encode f <+: chunks ∧
      start + chunks.length = g.address.toNat / p.chunkSize ∧
      Placed p encode (start + chunks.length) (g :: files) written := by
  have htake : ∀ n, start + ((chunks :: written).take (n + 1)).flatten.length =
      start + chunks.length + (written.take n).flatten.length := by
    intro n
    rw [List.take_succ_cons, List.flatten_cons, List.length_append, Nat.add_assoc]
  constructor
  · intro h
    have hbegins := h.begins 0 g rfl
    rw [htake, List.take_zero, List.flatten_nil, List.length_nil, Nat.add_zero] at hbegins
    refine ⟨h.sized chunks List.mem_cons_self, h.data 0 f chunks rfl rfl, hbegins,
      Nat.succ.inj h.length, fun c hc => h.sized c (List.mem_cons_of_mem _ hc),
      fun i => h.data (i + 1), fun i g' hg => ?_, fun i f' g' hf hg => ?_⟩
    · rw [← htake]
      exact h.begins (i + 1) g' hg
    · rw [← htake]
      exact h.apart (i + 1) f' g' hf hg
  · rintro ⟨hsized, hdata, hbegins, h⟩
    refine ⟨congrArg Nat.succ h.length, ?_, ?_, ?_, ?_⟩
    · intro c hc
      rcases List.mem_cons.mp hc with rfl | hc
      · exact hsized
      · exact h.sized c hc
    · rintro (_ | i) f' chunks' hf hc
      · cases hf
        cases hc
        exact hdata
      · exact h.data i f' chunks' hf hc
    · rintro (_ | i) g' hg
      · cases hg
        rw [htake, List.take_zero, List.flatten_nil, List.length_nil, Nat.add_zero, hbegins]
      · rw [htake]
        exact h.begins i g' hg
    · rintro (_ | i) f' g' hf hg
      · cases hf
        cases hg
        rw [List.take_zero, List.flatten_nil, List.length_nil, Nat.add_zero, ← hbegins]
        exact Nat.add_le_add_left hdata.length_le _
      · rw [htake]
        exact h.apart i f' g' hf hg

theorem chunkPerPartition_eq (hb : p.flashType = .nand → p.blockSize ≠ 0) (f g : ImageFile) :
    chunkPerPartition p f.address g.address = .ok (partitionChunks p f g) := by
  cases hn : p.flashType with
  | nor => simp only [chunkPerPartition, partitionChunks, hn]
  | nand => simp only [chunkPerPartition, partitionChunks, hn, if_neg (hb hn)]

theorem chunkPerBlock_ne (hb : p.flashType = .nand → p.blockSize ≠ 0)
    (h : partitionChunks p f g = noLimitedChunks) : p.chunkPerBlock ≠ 0 := by
  cases hn : p.flashType with
  | nor =>
    simp only [partitionChunks, hn] at h
    have hlt := (g.address - f.address).toNat_lt
    have hnat := congrArg UInt32.toNat h
    rw [UInt32.toNat_div] at hnat
    change (g.address - f.address).toNat / 2048 = 4294967295 at hnat
    omega
  | nand =>
    intro h0
    refine hb hn ?_
    rw [Params.blockSize, h0, UInt32.mul_zero]

/-- A last file needs a block size, unless it is empty. -/
theorem generateOnebin_last_crash (hb : ¬(f.bytes ≠ [] → p.chunkPerBlock ≠ 0)) :
    generateOnebin p encode [f] ≠ .ok r := by
  push Not at hb
  rw [generateOnebin, fileWriteOut, if_pos ⟨rfl, hb⟩]
  exact nofun

section Run

variable (hcs : p.chunkSize = 512 ∨ p.chunkSize = 2048 ∨ p.chunkSize = 4096)

include hcs

theorem generateOnebin_last (hb : f.bytes ≠ [] → p.chunkPerBlock ≠ 0) :
    generateOnebin p encode [f] = .ok (true, [segment p encode f noLimitedChunks]) := by
  rw [generateOnebin, fileWriteOut_enough (readSize_pos hcs f) (fun _ => hb) (.inl rfl)]
  rfl

theorem generateOnebin_cons (encode : Encoder) (f g : ImageFile) (files : List ImageFile)
    (hb : p.flashType = .nand → p.blockSize ≠ 0) :
    (TooLong p f g → ∃ chunks, generateOnebin p encode (f :: g :: files) = .ok (false, [chunks])) ∧
      (¬TooLong p f g → generateOnebin p encode (f :: g :: files) = do
        let (enough, more) ← generateOnebin p encode (g :: files)
        pure (enough, segment p encode f (partitionChunks p f g) :: more)) := by
  have hsize := readSize_pos hcs f
  rw [generateOnebin, chunkPerPartition_eq hb, ok_bind]
  constructor
  · rintro ⟨hne, hlt⟩
    obtain ⟨chunks, hc⟩ := fileWriteOut_tooLong encode hsize hne hlt
    refine ⟨chunks, ?_⟩
    rw [hc, ok_bind]
    rfl
  · intro h
    have henough : partitionChunks p f g = noLimitedChunks ∨
        f.bytes.length / p.readSize f ≤ (partitionChunks p f g).toNat := by
      by_cases hl : partitionChunks p f g = noLimitedChunks
      · exact .inl hl
      · exact .inr (Nat.le_of_not_lt fun hlt => h ⟨hl, hlt⟩)
    rw [fileWriteOut_enough hsize (fun hl _ => chunkPerBlock_ne hb hl) henough, ok_bind]
    rfl

/-- It returns 0 unless a file is refused. -/
theorem enough_iff (hb : 2 ≤ files.length → p.flashType = .nand → p.blockSize ≠ 0)
    (h : generateOnebin p encode files = .ok (enough, written)) :
    enough = true ↔ ¬Refused p files := by
  induction files generalizing enough written with
  | nil =>
    cases h
    simp [Refused]
  | cons f files ih =>
    cases files with
    | nil =>
      by_cases hbl : f.bytes ≠ [] → p.chunkPerBlock ≠ 0
      · rw [generateOnebin_last hcs hbl] at h
        cases h
        simp [Refused]
      · exact absurd h (generateOnebin_last_crash hbl)
    | cons g files =>
      have hb' := hb (Nat.le_add_left 2 files.length)
      obtain ⟨hlong, hshort⟩ := generateOnebin_cons hcs encode f g files hb'
      rw [Refused]
      by_cases ht : TooLong p f g
      · obtain ⟨chunks, hc⟩ := hlong ht
        cases hc.symm.trans h
        simp [ht]
      · rw [hshort ht] at h
        obtain ⟨⟨e, w⟩, hgen, hr⟩ := bind_ok.mp h
        cases hr
        rw [ih (fun _ => hb') hgen]
        simp [ht]

theorem placed_last_iff (start : Nat) :
    (∃ enough written, generateOnebin p encode [f] = .ok (enough, written) ∧
      (enough = true → Placed p encode start [f] written)) ↔
    LaidOut p f ∧ (f.bytes ≠ [] → p.chunkPerBlock ≠ 0) := by
  by_cases hbl : f.bytes ≠ [] → p.chunkPerBlock ≠ 0
  · rw [generateOnebin_last hcs hbl]
    simp only [Except.ok.injEq, Prod.mk.injEq]
    rw [← sized_segment_iff hcs encode f noLimitedChunks]
    constructor
    · rintro ⟨_, _, ⟨rfl, rfl⟩, h⟩
      exact ⟨(placed_singleton.mp (h rfl)).1, hbl⟩
    · rintro ⟨h, -⟩
      exact ⟨_, _, ⟨rfl, rfl⟩, fun _ => placed_singleton.mpr ⟨h, List.prefix_append _ _⟩⟩
  · simp only [hbl, and_false, iff_false]
    rintro ⟨enough, written, h, -⟩
    exact generateOnebin_last_crash hbl h

theorem placed_iff (hb : 2 ≤ files.length → p.flashType = .nand → p.blockSize ≠ 0) (start : Nat) :
    (∃ enough written, generateOnebin p encode files = .ok (enough, written) ∧
      (enough = true → Placed p encode start files written)) ↔
    (¬Refused p files → Exact p start files) := by
  induction files generalizing start with
  | nil =>
    simp only [Exact, imp_true_iff, iff_true]
    refine ⟨true, [], rfl, fun _ => ⟨rfl, ?_, ?_, ?_, ?_⟩⟩
    · exact fun _ h => absurd h List.not_mem_nil
    · exact fun i f chunks h => nomatch h
    · exact fun i g h => nomatch h
    · exact fun i f g h => nomatch h
  | cons f files ih =>
    cases files with
    | nil =>
      simp only [Refused, Exact, not_false_eq_true, true_imp_iff]
      exact placed_last_iff hcs start
    | cons g files =>
      have hb' := hb (Nat.le_add_left 2 files.length)
      obtain ⟨hlong, hshort⟩ := generateOnebin_cons hcs encode f g files hb'
      by_cases ht : TooLong p f g
      · obtain ⟨chunks, hc⟩ := hlong ht
        have hleft : ¬¬Refused p (f :: g :: files) := fun hn => hn (.inl ht)
        simp only [hleft, false_imp_iff, iff_true]
        exact ⟨false, _, hc, fun hf => absurd hf Bool.false_ne_true⟩
      · have hseg := length_segment (p := p) encode f g
        have ih := ih (fun _ => hb') (g.address.toNat / p.chunkSize)
        rw [hshort ht]
        constructor
        · rintro ⟨enough, written, h, hplaced⟩ hn
          obtain ⟨⟨e, w⟩, hgen, hr⟩ := bind_ok.mp h
          cases hr
          have hrest : ¬Refused p (g :: files) := fun hr => hn (.inr hr)
          have he := (enough_iff hcs (fun _ => hb') hgen).mpr hrest
          obtain ⟨hsized, -, hbegins, hp⟩ := placed_cons.mp (hplaced he)
          rw [hbegins] at hp
          rw [hseg] at hbegins
          exact ⟨(sized_segment_iff hcs encode f _).mp hsized, hbegins,
            ih.mp ⟨_, _, hgen, fun _ => hp⟩ hrest⟩
        · intro h
          have hexact : ¬Refused p (g :: files) → LaidOut p f ∧
              start + takenChunks p f g = g.address.toNat / p.chunkSize ∧
              Exact p (g.address.toNat / p.chunkSize) (g :: files) := fun hn =>
            h fun hr => hr.elim ht hn
          obtain ⟨e, w, hgen, hp⟩ := ih.mpr fun hn => (hexact hn).2.2
          refine ⟨e, _, by rw [hgen]; rfl, fun he => ?_⟩
          obtain ⟨hlaid, hbegins, -⟩ := hexact ((enough_iff hcs (fun _ => hb') hgen).mp he)
          rw [← hseg] at hbegins
          refine placed_cons.mpr ⟨(sized_segment_iff hcs encode f _).mpr hlaid, List.prefix_append _ _,
            hbegins, ?_⟩
          rw [hbegins]
          exact hp he

end Run

-- ---------------------------------------------------------------------------
-- Files in blocks
-- ---------------------------------------------------------------------------

/-- A NAND image as the tool is meant to be used: blocks of less than 4 GiB, files that begin
with a block, and none longer than its partition. -/
structure Blocks (p : Params) (files : List ImageFile) : Prop where
  nand : p.flashType = .nand
  pageType : p.nandPageType ≠ .unknown
  size : p.chunkSize * p.chunkPerBlock.toNat < 2 ^ 32
  chunkPerBlock : 0 < p.chunkPerBlock.toNat
  sorted : files.Pairwise (·.address < ·.address)
  aligned : ∀ f ∈ files, p.chunkSize * p.chunkPerBlock.toNat ∣ f.address.toNat
  fits : ∀ (i : Nat) f g, files[i]? = some f → files[i + 1]? = some g →
    fileChunks p f ≤ (partitionChunks p f g).toNat

theorem Blocks.tail (h : Blocks p (f :: files)) : Blocks p files where
  nand := h.nand
  pageType := h.pageType
  size := h.size
  chunkPerBlock := h.chunkPerBlock
  sorted := (List.pairwise_cons.mp h.sorted).2
  aligned g hg := h.aligned g (List.mem_cons_of_mem f hg)
  fits i := h.fits (i + 1)

theorem Blocks.blockSize_toNat (h : Blocks p files) :
    p.blockSize.toNat = p.chunkSize * p.chunkPerBlock.toNat := by
  have hle : p.chunkSize < 2 ^ 32 :=
    lt_of_le_of_lt (Nat.le_mul_of_pos_right _ h.chunkPerBlock) h.size
  rw [Params.blockSize, UInt32.toNat_mul, UInt32.toNat_ofNat', Nat.mod_eq_of_lt hle,
    Nat.mod_eq_of_lt h.size]

theorem Blocks.partition (h : Blocks p (f :: g :: files)) (hcs : 0 < p.chunkSize) :
    f.address.toNat / p.chunkSize + (partitionChunks p f g).toNat =
      g.address.toNat / p.chunkSize := by
  obtain ⟨x, hx⟩ := h.aligned f List.mem_cons_self
  obtain ⟨y, hy⟩ := h.aligned g (List.mem_cons_of_mem f List.mem_cons_self)
  have hlt : f.address < g.address :=
    (List.pairwise_cons.mp h.sorted).1 g List.mem_cons_self
  have hpos : 0 < p.chunkSize * p.chunkPerBlock.toNat := Nat.mul_pos hcs h.chunkPerBlock
  have hxy : x ≤ y := by
    have hnat := UInt32.lt_iff_toNat_lt.mp hlt
    rw [hx, hy] at hnat
    exact (Nat.lt_of_mul_lt_mul_left hnat).le
  have hsub : (g.address - f.address).toNat = p.chunkSize * p.chunkPerBlock.toNat * (y - x) := by
    rw [UInt32.toNat_sub_of_le _ _ (UInt32.le_of_lt hlt), hx, hy, Nat.mul_sub]
  have hover : (y - x) * p.chunkPerBlock.toNat < 2 ^ 32 := by
    refine lt_of_le_of_lt ?_ (g.address - f.address).toNat_lt
    rw [hsub, Nat.mul_comm (y - x), Nat.mul_assoc]
    exact Nat.le_mul_of_pos_left _ hcs
  have hpart : (partitionChunks p f g).toNat = (y - x) * p.chunkPerBlock.toNat := by
    rw [partitionChunks, h.nand]
    dsimp only
    rw [UInt32.toNat_mul, UInt32.toNat_div, hsub, h.blockSize_toNat, Nat.mul_div_cancel_left _ hpos,
      Nat.mod_eq_of_lt hover]
  have hdiv : ∀ n, p.chunkSize * p.chunkPerBlock.toNat * n / p.chunkSize = n * p.chunkPerBlock.toNat := by
    intro n
    rw [Nat.mul_assoc, Nat.mul_div_cancel_left _ hcs, Nat.mul_comm]
  rw [hpart, hx, hy, hdiv, hdiv, ← Nat.add_mul, Nat.add_sub_cancel' hxy]

theorem Blocks.exact (h : Blocks p (f :: files))
    (hcs : p.chunkSize = 512 ∨ p.chunkSize = 2048 ∨ p.chunkSize = 4096) :
    Exact p (f.address.toNat / p.chunkSize) (f :: files) := by
  have hlaid : ∀ f, LaidOut p f := fun f _ ht => absurd ht h.pageType
  induction files generalizing f with
  | nil => exact ⟨hlaid f, fun _ h0 => absurd h.chunkPerBlock (by simp [h0])⟩
  | cons g files ih =>
    have hpart := h.partition (by omega)
    have hfits := h.fits 0 f g rfl rfl
    have hlimited : partitionChunks p f g ≠ noLimitedChunks := by
      intro hn
      have hlt := g.address.toNat_lt
      have hle : g.address.toNat / p.chunkSize < 2 ^ 32 - 1 := by
        rcases hcs with hs | hs | hs <;> rw [hs] <;> omega
      have hpart' : (partitionChunks p f g).toNat ≤ g.address.toNat / p.chunkSize :=
        hpart ▸ Nat.le_add_left _ _
      rw [hn] at hpart'
      exact absurd (lt_of_le_of_lt hpart' hle) (by decide)
    refine ⟨hlaid f, ?_, ih h.tail⟩
    rw [takenChunks, if_neg hlimited, max_eq_right hfits, hpart]

theorem Blocks.not_refused (h : Blocks p files) (hcs : 0 < p.chunkSize) : ¬Refused p files := by
  induction files with
  | nil => exact id
  | cons f files ih =>
    cases files with
    | nil => exact id
    | cons g files =>
      rintro (⟨-, hlt⟩ | hr)
      · have hread : 0 < p.readSize f := by
          unfold Params.readSize Params.encodedSize
          split <;> omega
        have hfits := h.fits 0 f g rfl rfl
        have hle : f.bytes.length / p.readSize f ≤ fileChunks p f :=
          Nat.div_le_div_right (by omega)
        omega
      · exact ih h.tail hr

end File

namespace Merge

theorem chunkSize_eq (m : Merge) : m.params.chunkSize = 512 ∨ m.params.chunkSize = 2048 ∨
    m.params.chunkSize = 4096 := by
  have h := m.accepted
  simp only [checkParameters, Bool.or_eq_false_iff, Bool.and_eq_false_iff, decide_eq_false_iff_not,
    not_not] at h
  tauto

theorem keeps_of_regular (m : Merge) (h : m.Regular) : m.Keeps := by
  obtain ⟨enough, written, hgen, hp⟩ :=
    (placed_iff m.chunkSize_eq (fun hl hn => h.block hn hl) 0).mpr h.exact
  obtain ⟨hsorted, hperm⟩ := fileList_sorted m.listed
  exact ⟨enough, written, hgen, fun he => ⟨hsorted, hperm, hp he⟩⟩

theorem Keeps.regular {m : Merge} (h : m.Keeps) : m.Regular := by
  obtain ⟨enough, written, hgen, hp⟩ := h
  have hblock : 2 ≤ m.files.length → m.params.flashType = .nand → m.params.blockSize ≠ 0 := by
    intro hl hn h0
    match hf : m.files with
    | [] | [f] => simp [hf] at hl
    | f :: g :: files =>
      rw [hf, generateOnebin, chunkPerPartition, hn] at hgen
      simp [h0] at hgen
  exact ⟨fun hn hl => hblock hl hn,
    (placed_iff m.chunkSize_eq hblock 0).mp ⟨enough, written, hgen, fun he => (hp he).2.2⟩⟩

/-- The files are kept at their addresses exactly when a block has a size and, unless a file
is refused, every file takes the chunks up to the next address. -/
theorem keeps_iff (m : Merge) : m.Keeps ↔ m.Regular :=
  ⟨fun h => h.regular, m.keeps_of_regular⟩

/-- With a loader at the start and every file in blocks of its own, nothing is refused and
every file is at its address. -/
theorem regular_of_blocks (m : Merge) (h : Blocks m.params (f :: rest))
    (hfiles : m.files = f :: rest) (h0 : f.address = 0) :
    ¬Refused m.params m.files ∧ m.Regular := by
  have hcs := m.chunkSize_eq
  refine ⟨hfiles ▸ h.not_refused (by omega), fun _ _ hz => ?_, fun _ => ?_⟩
  · have hsize := h.blockSize_toNat
    rw [hz] at hsize
    exact absurd hsize.symm (Nat.mul_pos (by omega) h.chunkPerBlock).ne'
  · have hexact := h.exact hcs
    rw [h0] at hexact
    rw [hfiles]
    simpa using hexact

def defaultParams : Params where
  flashType := .nand
  nandPageType := .large
  chunkSize := 2048
  chunkPerBlock := 64
  bbiSwapOffset := minusOne
  bbiDmaOffset := minusOne

def longLoader : ImageFile := ⟨0, true, List.replicate 135169 0⟩

def kernelFile : ImageFile := ⟨0x20000, false, [0]⟩

def longLoaderMerge : Merge where
  params := defaultParams
  encode _ _ := Vector.replicate 10 0
  given := [longLoader, kernelFile]
  files := [longLoader, kernelFile]
  listed := rfl
  accepted := rfl

theorem longLoaderMerge_not_kept : ¬longLoaderMerge.Keeps := by
  intro h
  have hpart : partitionChunks defaultParams longLoader kernelFile = 64 := by decide
  have hread : defaultParams.readSize longLoader = 2112 := by decide
  have hlen : longLoader.bytes.length = 135169 := List.length_replicate
  have hshort : ¬Refused defaultParams [longLoader, kernelFile] := by
    rintro (⟨-, hlt⟩ | hr)
    · rw [hpart, hread, hlen] at hlt
      exact absurd hlt (by decide)
    · exact hr
  have hexact : Exact defaultParams 0 [longLoader, kernelFile] := h.regular.exact hshort
  have htaken : 0 + takenChunks defaultParams longLoader kernelFile =
      kernelFile.address.toNat / defaultParams.chunkSize := hexact.2.1
  have htwo : takenChunks defaultParams longLoader kernelFile = 65 := by
    rw [takenChunks, hpart, if_neg (by decide), fileChunks, hread, hlen]
    rfl
  rw [htwo] at htaken
  exact absurd htaken (by decide)

end Merge

end BismarckPreloader.Onebin
