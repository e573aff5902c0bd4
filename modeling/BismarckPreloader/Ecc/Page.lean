import BismarckPreloader.Ecc
import BismarckPreloader.Lib.Memory
import Mathlib.Data.List.Forall2

/-!
# A page through the ECC engine

A page holds its sectors' data, then their tags, then their syndromes. The
engine works on one sector at a time: the data in place, the tag and the
syndrome in a bounce buffer that `ecc_encode_bch_sector` and
`ecc_decode_bch_sector` fill and empty around it.

The engine is described by what becomes of a sector that was written as one word
and read as another: up to `t` flipped bits are put right and counted, more are
reported. The status of the page is `eccDecodeBchSector` of the sectors' own.
-/

namespace BismarckPreloader.EccPage

inductive Ability where
  | bch6
  | bch12
  deriving DecidableEq

def Ability.t : Ability → Nat
  | .bch6 => 6
  | .bch12 => 12

def Ability.synSize : Ability → Nat
  | .bch6 => 10
  | .bch12 => 20

def bchSectorSize : Nat := 512
def bchTagSize : Nat := 6

inductive Sectors where
  | four
  | eight
  deriving DecidableEq

def Sectors.count : Sectors → Nat
  | .four => 4
  | .eight => 8

structure Word where
  data : List UInt8
  tag : List UInt8
  syn : List UInt8
  deriving DecidableEq

structure Word.Sized (ab : Ability) (w : Word) : Prop where
  data : w.data.length = bchSectorSize
  tag : w.tag.length = bchTagSize
  syn : w.syn.length = ab.synSize

def popcount (b : UInt8) : Nat := (List.range 8).countP b.toBitVec.getLsbD

def flips (xs ys : List UInt8) : Nat := ((List.zipWith (· ^^^ ·) xs ys).map popcount).sum

def Word.flips (w w' : Word) : Nat :=
  EccPage.flips w.data w'.data + EccPage.flips w.tag w'.tag + EccPage.flips w.syn w'.syn

/-- `decode w w'` is the engine on a sector written as `w` that is read as `w'`:
the status register and what the engine leaves in memory. What it leaves of a
sector it gives up on is not known. -/
structure Engine (ab : Ability) where
  syndrome : List UInt8 → List UInt8 → List UInt8
  length_syndrome : ∀ data tag, (syndrome data tag).length = ab.synSize
  decode : Word → Word → EccSts × Word
  sized : ∀ w w', w'.Sized ab → (decode w w').2.Sized ab
  corrects : ∀ w w', w.Sized ab → w'.Sized ab → w.syn = syndrome w.data w.tag →
    w.flips w' ≤ ab.t → (decode w w').1.ecer = false ∧
      (decode w w').1.eccn = BitVec.ofNat 8 (w.flips w') ∧ (decode w w').2 = w
  rejects : ∀ w w', w.Sized ab → w'.Sized ab → w.syn = syndrome w.data w.tag →
    ab.t < w.flips w' → (decode w w').1.Uncorrectable

-- ---------------------------------------------------------------------------
-- The page in memory
-- ---------------------------------------------------------------------------

/-- Where the page and the bounce buffer are; the buffer is not part of the page. -/
structure Place (ab : Ability) (n : Sectors) where
  dmaAddr : Nat
  eccbuf : Nat
  apart : eccbuf + bchTagSize + ab.synSize ≤ dmaAddr ∨
    dmaAddr + bchSectorSize * n.count + bchTagSize * n.count + ab.synSize * n.count ≤ eccbuf

variable {ab : Ability} {n : Sectors}

namespace Place

def dataAddr (pl : Place ab n) (j : Nat) : Nat := pl.dmaAddr + bchSectorSize * j

def tagAddr (pl : Place ab n) (j : Nat) : Nat :=
  pl.dmaAddr + bchSectorSize * n.count + bchTagSize * j

def synAddr (pl : Place ab n) (j : Nat) : Nat :=
  pl.dmaAddr + bchSectorSize * n.count + bchTagSize * n.count + ab.synSize * j

def word (pl : Place ab n) (m : Mem) (j : Nat) : Word where
  data := m.slice (pl.dataAddr j) bchSectorSize
  tag := m.slice (pl.tagAddr j) bchTagSize
  syn := m.slice (pl.synAddr j) ab.synSize

theorem word_sized (pl : Place ab n) (m : Mem) (j : Nat) : (pl.word m j).Sized ab := by
  constructor <;> simp only [word, Mem.length_slice]

end Place

/-- `inline_memcpy` between regions that do not overlap. -/
def memcpy (m : Mem) (dst src len : Nat) : Mem := m.write dst (m.slice src len)

def encodeStep (eng : Engine ab) (pl : Place ab n) (m : Mem) (j : Nat) : Mem :=
  let m := memcpy m pl.eccbuf (pl.tagAddr j) bchTagSize
  let m := m.write (pl.eccbuf + bchTagSize)
    (eng.syndrome (m.slice (pl.dataAddr j) bchSectorSize) (m.slice pl.eccbuf bchTagSize))
  let m := memcpy m (pl.tagAddr j) pl.eccbuf bchTagSize
  memcpy m (pl.synAddr j) (pl.eccbuf + bchTagSize) ab.synSize

def eccEncodeBchSector (eng : Engine ab) (pl : Place ab n) (m : Mem) : Mem :=
  (List.range n.count).foldl (encodeStep eng pl) m

/-- The engine on the data at `addr` and on the buffer, which hold what was
written as `w`. -/
def engineDecode (eng : Engine ab) (pl : Place ab n) (w : Word) (addr : Nat) (m : Mem) :
    EccSts × Mem :=
  let out := eng.decode w ⟨m.slice addr bchSectorSize, m.slice pl.eccbuf bchTagSize,
    m.slice (pl.eccbuf + bchTagSize) ab.synSize⟩
  (out.1, ((m.write addr out.2.data).write pl.eccbuf out.2.tag).write
    (pl.eccbuf + bchTagSize) out.2.syn)

def decodeStep (eng : Engine ab) (pl : Place ab n) (written : Nat → Word)
    (s : List EccSts × Mem) (j : Nat) : List EccSts × Mem :=
  let m := memcpy s.2 pl.eccbuf (pl.tagAddr j) bchTagSize
  let m := memcpy m (pl.eccbuf + bchTagSize) (pl.synAddr j) ab.synSize
  let out := engineDecode eng pl (written j) (pl.dataAddr j) m
  (s.1 ++ [out.1], memcpy out.2 (pl.tagAddr j) pl.eccbuf bchTagSize)

def decodePage (eng : Engine ab) (pl : Place ab n) (written : Nat → Word) (m : Mem) :
    List EccSts × Mem :=
  (List.range n.count).foldl (decodeStep eng pl written) ([], m)

def decodeBchSector (eng : Engine ab) (pl : Place ab n) (written : Nat → Word) (m : Mem) :
    BitVec 32 × Mem :=
  let out := decodePage eng pl written m
  (eccDecodeBchSector out.1, out.2)

-- ---------------------------------------------------------------------------
-- One sector
-- ---------------------------------------------------------------------------

theorem slot_within (size : Nat) {j n : Nat} (h : j < n) : size * j + size ≤ size * n := by
  have := Nat.mul_le_mul_left size h
  rwa [Nat.mul_succ] at this

theorem slot_apart (size : Nat) {i j : Nat} (h : i ≠ j) :
    size * i + size ≤ size * j ∨ size * j + size ≤ size * i := by
  rcases Nat.lt_or_gt_of_ne h with h | h
  · exact .inl (slot_within size h)
  · exact .inr (slot_within size h)

/-- What one sector's pass of a loop writes lies in the buffer and in the
sector's own slots. -/
theorem word_write (pl : Place ab n) (m : Mem) {i j : Nat} (hi : i < n.count) (hj : j < n.count)
    (hij : i ≠ j) {a : Nat} {bs : List UInt8}
    (ha : (pl.eccbuf ≤ a ∧ a + bs.length ≤ pl.eccbuf + bchTagSize + ab.synSize) ∨
      (a = pl.dataAddr j ∧ bs.length = bchSectorSize) ∨
      (a = pl.tagAddr j ∧ bs.length = bchTagSize) ∨
      (a = pl.synAddr j ∧ bs.length = ab.synSize)) :
    pl.word (m.write a bs) i = pl.word m i := by
  have hd := slot_within bchSectorSize hi
  have ht := slot_within bchTagSize hi
  have hs := slot_within ab.synSize hi
  have hd' := slot_within bchSectorSize hj
  have ht' := slot_within bchTagSize hj
  have hs' := slot_within ab.synSize hj
  have had := slot_apart bchSectorSize hij
  have hat := slot_apart bchTagSize hij
  have has := slot_apart ab.synSize hij
  have hap := pl.apart
  unfold Place.word
  unfold Place.dataAddr Place.tagAddr Place.synAddr at *
  rw [Mem.slice_write_apart _ _ (by omega), Mem.slice_write_apart _ _ (by omega),
    Mem.slice_write_apart _ _ (by omega)]

theorem own_apart (pl : Place ab n) (hj : j < n.count) :
    pl.dataAddr j + bchSectorSize ≤ pl.tagAddr j ∧ pl.tagAddr j + bchTagSize ≤ pl.synAddr j ∧
    (pl.eccbuf + bchTagSize + ab.synSize ≤ pl.dataAddr j ∨
      pl.synAddr j + ab.synSize ≤ pl.eccbuf) := by
  have hd := slot_within bchSectorSize hj
  have ht := slot_within bchTagSize hj
  have hs := slot_within ab.synSize hj
  have hap := pl.apart
  unfold Place.dataAddr Place.tagAddr Place.synAddr
  omega

theorem encodeStep_self (eng : Engine ab) (pl : Place ab n) (m : Mem) (hj : j < n.count) :
    pl.word (encodeStep eng pl m j) j =
      ⟨(pl.word m j).data, (pl.word m j).tag,
        eng.syndrome (pl.word m j).data (pl.word m j).tag⟩ := by
  obtain ⟨h1, h2, h3⟩ := own_apart pl hj
  simp (disch := (simp only [Mem.length_slice, eng.length_syndrome] <;> omega)) only
    [encodeStep, memcpy, Place.word, Mem.slice_write_self, Mem.slice_write_apart]

theorem encodeStep_other (eng : Engine ab) (pl : Place ab n) (m : Mem) (hi : i < n.count)
    (hj : j < n.count) (hij : i ≠ j) : pl.word (encodeStep eng pl m j) i = pl.word m i := by
  unfold encodeStep memcpy
  dsimp only
  rw [word_write pl _ hi hj hij (by simp), word_write pl _ hi hj hij (by simp),
    word_write pl _ hi hj hij (by simp [eng.length_syndrome]),
    word_write pl _ hi hj hij (by simp)]

theorem decodeStep_self (eng : Engine ab) (pl : Place ab n) (written : Nat → Word)
    (s : List EccSts × Mem) (hj : j < n.count) :
    (decodeStep eng pl written s j).1 = s.1 ++ [(eng.decode (written j) (pl.word s.2 j)).1] ∧
    (pl.word (decodeStep eng pl written s j).2 j).data =
      (eng.decode (written j) (pl.word s.2 j)).2.data ∧
    (pl.word (decodeStep eng pl written s j).2 j).tag =
      (eng.decode (written j) (pl.word s.2 j)).2.tag := by
  obtain ⟨h1, h2, h3⟩ := own_apart pl hj
  have hsized := eng.sized (written j) _ (pl.word_sized s.2 j)
  have hword : pl.word s.2 j = ⟨s.2.slice (pl.dataAddr j) bchSectorSize,
    s.2.slice (pl.tagAddr j) bchTagSize, s.2.slice (pl.synAddr j) ab.synSize⟩ := rfl
  rw [hword] at hsized ⊢
  -- the engine finds the sector's own word in place and in the buffer
  simp (disch := (simp only [Mem.length_slice] <;> omega)) only
    [decodeStep, engineDecode, memcpy, Mem.slice_write_self, Mem.slice_write_apart]
  generalize eng.decode (written j) _ = out at hsized ⊢
  obtain ⟨hd, ht, hs⟩ := hsized
  refine ⟨trivial, ?_, ?_⟩
  · simp (disch := (first | omega | (simp only [Mem.length_slice]; omega))) only
      [Place.word, Mem.slice_write_self, Mem.slice_write_apart]
  · simp (disch := (first | omega | (simp only [Mem.length_slice]; omega))) only
      [Place.word, Mem.slice_write_self, Mem.slice_write_apart]

theorem decodeStep_other (eng : Engine ab) (pl : Place ab n) (written : Nat → Word)
    (s : List EccSts × Mem) (hi : i < n.count) (hj : j < n.count) (hij : i ≠ j) :
    pl.word (decodeStep eng pl written s j).2 i = pl.word s.2 i := by
  unfold decodeStep engineDecode memcpy
  dsimp only
  generalize hw : eng.decode (written j) _ = out
  have hsized : out.2.Sized ab := by
    rw [← hw]
    apply eng.sized
    constructor <;> simp only [Mem.length_slice]
  obtain ⟨hd, ht, hs⟩ := hsized
  rw [word_write pl _ hi hj hij (by simp), word_write pl _ hi hj hij (by simp [hs]),
    word_write pl _ hi hj hij (by simp [ht]), word_write pl _ hi hj hij (by simp [hd]),
    word_write pl _ hi hj hij (by simp), word_write pl _ hi hj hij (by simp)]

def Engine.encode (eng : Engine ab) (w : Word) : Word :=
  ⟨w.data, w.tag, eng.syndrome w.data w.tag⟩

theorem encode_run (eng : Engine ab) (pl : Place ab n) (m : Mem) (hk : k ≤ n.count)
    (hi : i < n.count) : pl.word ((List.range k).foldl (encodeStep eng pl) m) i =
      if i < k then eng.encode (pl.word m i) else pl.word m i := by
  induction k with
  | zero => rfl
  | succ k ih =>
    rw [List.range_succ, List.foldl_append, List.foldl_cons, List.foldl_nil]
    have ih := ih (by omega)
    by_cases hik : i = k
    · subst hik
      rw [if_neg (Nat.lt_irrefl i)] at ih
      rw [encodeStep_self eng pl _ hi, ih, if_pos (Nat.lt_succ_self i)]
      rfl
    · rw [encodeStep_other eng pl _ hi (by omega) hik, ih]
      exact if_congr (by omega) rfl rfl

theorem encoded_word (eng : Engine ab) (pl : Place ab n) (m : Mem) (hi : i < n.count) :
    pl.word (eccEncodeBchSector eng pl m) i = eng.encode (pl.word m i) := by
  rw [eccEncodeBchSector, encode_run eng pl m (Nat.le_refl _) hi, if_pos hi]

/-- After `k` sectors: the statuses so far, the words of the sectors that are
done as the engine left them, and those ahead untouched. -/
theorem decode_run (eng : Engine ab) (pl : Place ab n) (written : Nat → Word) (m : Mem)
    (hk : k ≤ n.count) :
    let s := (List.range k).foldl (decodeStep eng pl written) ([], m)
    s.1 = (List.range k).map (fun j => (eng.decode (written j) (pl.word m j)).1) ∧
    (∀ i < k, (pl.word s.2 i).data = (eng.decode (written i) (pl.word m i)).2.data ∧
      (pl.word s.2 i).tag = (eng.decode (written i) (pl.word m i)).2.tag) ∧
    (∀ i < n.count, k ≤ i → pl.word s.2 i = pl.word m i) := by
  induction k with
  | zero => exact ⟨rfl, fun i hi => absurd hi (Nat.not_lt_zero i), fun _ _ _ => rfl⟩
  | succ k ih =>
    obtain ⟨hsts, hdone, hahead⟩ := ih (by omega)
    have hkn : k < n.count := hk
    rw [List.range_succ, List.foldl_append, List.foldl_cons, List.foldl_nil]
    generalize (List.range k).foldl (decodeStep eng pl written) ([], m) = s at hsts hdone hahead ⊢
    obtain ⟨h1, h2, h3⟩ := decodeStep_self eng pl written s hkn
    rw [hahead k hkn (Nat.le_refl k)] at h1 h2 h3
    refine ⟨?_, fun i hi => ?_, fun i hi hki => ?_⟩
    · rw [h1, hsts, List.map_append, List.map_singleton]
    · by_cases hik : i = k
      · subst hik
        exact ⟨h2, h3⟩
      · rw [decodeStep_other eng pl written s (by omega) hkn hik]
        exact hdone i (by omega)
    · rw [decodeStep_other eng pl written s hi hkn (by omega)]
      exact hahead i hi (by omega)

theorem decoded_word (eng : Engine ab) (pl : Place ab n) (written : Nat → Word) (m : Mem)
    (hi : i < n.count) :
    (pl.word (decodeBchSector eng pl written m).2 i).data =
        (eng.decode (written i) (pl.word m i)).2.data ∧
      (pl.word (decodeBchSector eng pl written m).2 i).tag =
        (eng.decode (written i) (pl.word m i)).2.tag := by
  have h := (decode_run eng pl written m (Nat.le_refl n.count)).2.1 i hi
  rwa [← decodePage] at h

-- ---------------------------------------------------------------------------
-- The returned value
-- ---------------------------------------------------------------------------

theorem slt_ofNat (ha : a < 256) (hb : b < 256) :
    (BitVec.ofNat 32 a).slt (BitVec.ofNat 32 b) = decide (a < b) := by
  have h (x : Nat) (hx : x < 256) : (BitVec.ofNat 32 x).toInt = x := by
    rw [BitVec.toInt_eq_toNat_of_lt] <;> rw [BitVec.toNat_ofNat] <;> omega
  rw [BitVec.slt, h a ha, h b hb]
  simp

theorem decodeSectors_counts (counts : List Nat) (rs : List EccSts)
    (hrs : List.Forall₂ (fun r k => r.ecer = false ∧ r.eccn = BitVec.ofNat 8 k) rs counts)
    (hsmall : ∀ k ∈ counts, k < 256) (hb : b < 256) (j : Nat) (err : BitVec 32) :
    decodeSectors j err (BitVec.ofNat 32 b) rs = (err, BitVec.ofNat 32 (counts.foldl max b)) := by
  induction hrs generalizing j b with
  | nil => rfl
  | @cons r k rs counts hr _ ih =>
    simp only [List.mem_cons, forall_eq_or_imp] at hsmall
    obtain ⟨hk, hsmall⟩ := hsmall
    have hsts : checkEccCtrlStatus r = BitVec.ofNat 32 k := by
      simp only [checkEccCtrlStatus, hr.1, Bool.false_eq_true, if_false, hr.2]
      apply BitVec.eq_of_toNat_eq
      simp only [BitVec.toNat_setWidth, BitVec.toNat_ofNat]
      omega
    have hne : checkEccCtrlStatus r ≠ eccCtrlErr := by
      intro h
      have := (checkEccCtrlStatus_eq_err r).mp h
      simp [EccSts.Uncorrectable, hr.1] at this
    rw [decodeSectors, if_neg hne, hsts, slt_ofNat hb hk, List.foldl_cons]
    by_cases hbk : b < k
    · rw [if_pos (by simpa using hbk), ih hsmall hk, Nat.max_eq_right (Nat.le_of_lt hbk)]
    · rw [if_neg (by simpa using hbk), ih hsmall hb, Nat.max_eq_left (Nat.le_of_not_lt hbk)]

theorem getLsbD_one_shiftLeft {j k : Nat} (h : k ≠ j) :
    (1#32 <<< j).getLsbD k = false := by
  rw [BitVec.getLsbD_shiftLeft]
  rcases Nat.lt_or_gt_of_ne h with h | h
  · simp [h]
  · have hne : k - j ≠ 0 := by omega
    simp [hne]

def FailedFrom (j : Nat) (rs : List EccSts) (k : Nat) : Prop :=
  j ≤ k ∧ ∃ r, rs[k - j]? = some r ∧ r.Uncorrectable

theorem failedFrom_cons (h : k ≠ j) : FailedFrom j (r :: rs) k ↔ FailedFrom (j + 1) rs k := by
  unfold FailedFrom
  rcases Nat.lt_or_gt_of_ne h with h | h
  · simp only [Nat.not_le_of_lt h, Nat.not_le_of_lt (Nat.lt_succ_of_lt h), false_and]
  · obtain ⟨d, rfl⟩ := Nat.exists_eq_add_of_lt h
    simp [show j + d + 1 - (j + 1) = d by omega, show j + d + 1 - j = d + 1 by omega,
      show j + 1 ≤ j + d + 1 by omega, show j ≤ j + d + 1 by omega]

theorem failedFrom_self : FailedFrom j (r :: rs) j ↔ r.Uncorrectable := by
  simp [FailedFrom]

theorem not_failedFrom_lt (h : k < j) : ¬ FailedFrom j rs k :=
  fun hf => Nat.not_le_of_lt h hf.1

theorem decodeSectors_mask (rs : List EccSts) (j : Nat) (err bits : BitVec 32) (hk : k < 32) :
    (decodeSectors j err bits rs).1.getLsbD k = true ↔
      err.getLsbD k = true ∨ FailedFrom j rs k := by
  induction rs generalizing j err bits with
  | nil => simp [decodeSectors, FailedFrom]
  | cons r rs ih =>
    rw [decodeSectors]
    by_cases hkj : k = j
    · subst hkj
      have hlater : ¬ FailedFrom (k + 1) rs k := not_failedFrom_lt (Nat.lt_succ_self k)
      rw [failedFrom_self]
      split
      · rename_i herr
        have hu := (checkEccCtrlStatus_eq_err r).mp herr
        rw [ih]
        simp [hu, hk]
      · rename_i herr
        have hu : ¬ r.Uncorrectable := fun hu => herr ((checkEccCtrlStatus_eq_err r).mpr hu)
        split
        · simp [ih, hu, hlater]
        · simp [ih, hu, hlater]
    · rw [failedFrom_cons hkj]
      split
      · rw [ih, BitVec.getLsbD_or, getLsbD_one_shiftLeft hkj, Bool.or_false]
      · split
        · exact ih _ _ _
        · exact ih _ _ _

-- ---------------------------------------------------------------------------
-- Encoded, disturbed and decoded
-- ---------------------------------------------------------------------------

/-- The bits of sector `j` that differ between the page encoded from `m` and the
page that is read, `m'`. -/
def errors (eng : Engine ab) (pl : Place ab n) (m m' : Mem) (j : Nat) : Nat :=
  (pl.word (eccEncodeBchSector eng pl m) j).flips (pl.word m' j)

def readBack (eng : Engine ab) (pl : Place ab n) (m m' : Mem) : BitVec 32 × Mem :=
  decodeBchSector eng pl (pl.word (eccEncodeBchSector eng pl m)) m'

structure RoundTrip (eng : Engine ab) (pl : Place ab n) (m m' : Mem) : Prop where
  restored : ∀ j < n.count, errors eng pl m m' j ≤ ab.t →
    (pl.word (readBack eng pl m m').2 j).data = (pl.word m j).data ∧
    (pl.word (readBack eng pl m m').2 j).tag = (pl.word m j).tag
  counted : (∀ j < n.count, errors eng pl m m' j ≤ ab.t) → (readBack eng pl m m').1 =
    BitVec.ofNat 32 (((List.range n.count).map (errors eng pl m m')).foldl max 0)
  failed : (∃ j < n.count, ab.t < errors eng pl m m' j) →
    isEccDecodeFail (readBack eng pl m m').1 = true ∧
    ∀ k < 8, (readBack eng pl m m').1.getLsbD k =
      decide (k < n.count ∧ ab.t < errors eng pl m m' k)

section

variable (eng : Engine ab) (pl : Place ab n) (m m' : Mem)

def stsOf (j : Nat) : EccSts :=
  (eng.decode (pl.word (eccEncodeBchSector eng pl m) j) (pl.word m' j)).1

theorem readBack_fst :
    (readBack eng pl m m').1 = eccDecodeBchSector ((List.range n.count).map (stsOf eng pl m m')) :=
  congrArg eccDecodeBchSector (decode_run eng pl _ m' (Nat.le_refl _)).1

theorem encoded_codeword (hj : j < n.count) :
    (pl.word (eccEncodeBchSector eng pl m) j).syn =
      eng.syndrome (pl.word (eccEncodeBchSector eng pl m) j).data
        (pl.word (eccEncodeBchSector eng pl m) j).tag := by
  simp only [encoded_word eng pl m hj, Engine.encode]

theorem corrected (hj : j < n.count) (he : errors eng pl m m' j ≤ ab.t) :
    (stsOf eng pl m m' j).ecer = false ∧
      (stsOf eng pl m m' j).eccn = BitVec.ofNat 8 (errors eng pl m m' j) ∧
      (eng.decode (pl.word (eccEncodeBchSector eng pl m) j) (pl.word m' j)).2 =
        pl.word (eccEncodeBchSector eng pl m) j :=
  eng.corrects _ _ (pl.word_sized _ j) (pl.word_sized _ j) (encoded_codeword eng pl m hj) he

theorem uncorrectable_iff (hj : j < n.count) :
    (stsOf eng pl m m' j).Uncorrectable ↔ ab.t < errors eng pl m m' j := by
  constructor
  · intro hu
    by_contra he
    have hc := (corrected eng pl m m' hj (Nat.le_of_not_lt he)).1
    rw [hu.1] at hc
    cases hc
  · exact eng.rejects _ _ (pl.word_sized _ j) (pl.word_sized _ j) (encoded_codeword eng pl m hj)

theorem restored_word (hj : j < n.count) (he : errors eng pl m m' j ≤ ab.t) :
    (pl.word (readBack eng pl m m').2 j).data = (pl.word m j).data ∧
      (pl.word (readBack eng pl m m').2 j).tag = (pl.word m j).tag := by
  obtain ⟨hd, ht⟩ := decoded_word eng pl (pl.word (eccEncodeBchSector eng pl m)) m' hj
  rw [(corrected eng pl m m' hj he).2.2, encoded_word eng pl m hj] at hd ht
  simp only [readBack, hd, ht, Engine.encode, and_self]

theorem t_lt (ab : Ability) : ab.t < 256 := by cases ab <;> decide

theorem count_le (n : Sectors) : n.count ≤ 8 := by cases n <;> decide

theorem counted_value (h : ∀ j < n.count, errors eng pl m m' j ≤ ab.t) :
    (readBack eng pl m m').1 =
      BitVec.ofNat 32 (((List.range n.count).map (errors eng pl m m')).foldl max 0) := by
  have hrun := decodeSectors_counts ((List.range n.count).map (errors eng pl m m'))
    ((List.range n.count).map (stsOf eng pl m m')) ?_ ?_ (b := 0) (by decide) 0 0#32
  · rw [readBack_fst, eccDecodeBchSector, hrun]
    rfl
  · simp only [List.forall₂_map_left_iff, List.forall₂_map_right_iff, List.forall₂_same,
      List.mem_range]
    intro j hj
    obtain ⟨he, hc, -⟩ := corrected eng pl m m' hj (h j hj)
    exact ⟨he, hc⟩
  · simp only [List.mem_map, List.mem_range]
    rintro k ⟨j, hj, rfl⟩
    exact Nat.lt_of_le_of_lt (h j hj) (t_lt ab)

theorem mask_bit (hk : k < 8) : (decodeSectors 0 0#32 0#32
    ((List.range n.count).map (stsOf eng pl m m'))).1.getLsbD k =
      decide (k < n.count ∧ ab.t < errors eng pl m m' k) := by
  have hiff : FailedFrom 0 ((List.range n.count).map (stsOf eng pl m m')) k ↔
      k < n.count ∧ ab.t < errors eng pl m m' k := by
    unfold FailedFrom
    by_cases hkn : k < n.count
    · simp [hkn, uncorrectable_iff eng pl m m' hkn]
    · simp [hkn]
  rw [Bool.eq_iff_iff, decodeSectors_mask _ _ _ _ (by omega), hiff]
  simp

theorem failed_value (h : ∃ j < n.count, ab.t < errors eng pl m m' j) :
    isEccDecodeFail (readBack eng pl m m').1 = true ∧
      ∀ k < 8, (readBack eng pl m m').1.getLsbD k =
        decide (k < n.count ∧ ab.t < errors eng pl m m' k) := by
  obtain ⟨j, hj, he⟩ := h
  have hlen : ((List.range n.count).map (stsOf eng pl m m')).length ≤ 8 := by
    simpa using count_le n
  rw [readBack_fst]
  constructor
  · rw [isEccDecodeFail_eccDecodeBchSector _ hlen]
    exact ⟨_, List.mem_map_of_mem (List.mem_range.mpr hj),
      (uncorrectable_iff eng pl m m' hj).mpr he⟩
  · intro k hk
    have hj8 : j < 8 := Nat.lt_of_lt_of_le hj (count_le n)
    have hne : (decodeSectors 0 0#32 0#32 ((List.range n.count).map (stsOf eng pl m m'))).1 ≠
        0#32 := by
      intro h0
      have := mask_bit eng pl m m' hj8
      rw [h0] at this
      simp [hj, he] at this
    unfold eccDecodeBchSector
    dsimp only
    rw [if_neg hne, BitVec.getLsbD_or, mask_bit eng pl m m' hk]
    have hflag : ∀ k < 8, eccCtrlErr.getLsbD k = false := by decide
    rw [hflag k hk, Bool.false_or]

theorem page_ecc_round_trip : RoundTrip eng pl m m' where
  restored _ hj he := restored_word eng pl m m' hj he
  counted := counted_value eng pl m m'
  failed := failed_value eng pl m m'

end

def idealEngine (ab : Ability) : Engine ab where
  syndrome _ _ := List.replicate ab.synSize 0
  length_syndrome _ _ := List.length_replicate
  decode w w' := if w.flips w' ≤ ab.t ∧ w.data.length = bchSectorSize ∧
      w.tag.length = bchTagSize ∧ w.syn.length = ab.synSize
    then (⟨false, false, BitVec.ofNat 8 (w.flips w')⟩, w) else (⟨true, false, 0⟩, w')
  sized w w' h := by
    split
    · rename_i hw
      exact ⟨hw.2.1, hw.2.2.1, hw.2.2.2⟩
    · exact h
  corrects w w' hw _ _ ht := by
    rw [if_pos ⟨ht, hw.data, hw.tag, hw.syn⟩]
    exact ⟨rfl, rfl, rfl⟩
  rejects w w' _ _ _ ht := by
    rw [if_neg fun h => Nat.not_le_of_lt ht h.1]
    exact ⟨rfl, rfl⟩

end BismarckPreloader.EccPage
