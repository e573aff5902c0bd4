import Mathlib.Data.Nat.Count
import Mathlib.Data.List.Range

/-!
# Skipping bad blocks

The driver keeps a byte for every logical block: how many bad blocks lie in front of the
physical block that stands for it. `create_bbt` flags the bad blocks, `create_skip_table`
fills the table, `get_good_block` translates a page number. The value 0xFF marks a logical
block that has no physical one, and also the blocks that would be 255 blocks away.

`Chip.skipsBad` says what the table holds for any set of bad blocks.
-/

namespace BismarckPreloader.Snaf

def maxBlocks : Nat := 4096

/-- The words of `bbt_table`. -/
abbrev Flags := Nat → BitVec 32

def setFlags (arr : Flags) (i : Nat) : Flags :=
  Function.update arr (i / 32) (arr (i / 32) ||| BitVec.twoPow 32 (i % 32))

def getFlags (arr : Flags) (i : Nat) : Bool := arr (i / 32) &&& BitVec.twoPow 32 (i % 32) ≠ 0#32

/-- The loop of `create_bbt` over the blocks behind the first; `flagged` is what the tags of
a block's first page say. -/
def createBbt (numBlock : Nat) (flagged : Nat → Bool) : Flags :=
  (List.range' 1 (numBlock - 1)).foldl (fun arr b => if flagged b then setFlags arr b else arr)
    fun _ => 0#32

theorem getFlags_eq (arr : Flags) (i : Nat) : getFlags arr i = (arr (i / 32)).getLsbD (i % 32) := by
  have hlt : i % 32 < 32 := Nat.mod_lt _ (by decide)
  have hne : BitVec.twoPow 32 (i % 32) ≠ 0#32 := by
    intro h
    have hbit := congrArg (fun x => BitVec.getLsbD x (i % 32)) h
    simp [hlt] at hbit
  rw [getFlags, BitVec.and_twoPow]
  split
  next h => simp [h, hne]
  next h => simpa using h

theorem getFlags_setFlags (arr : Flags) (i j : Nat) :
    getFlags (setFlags arr i) j = (decide (i = j) || getFlags arr j) := by
  have hi : i % 32 < 32 := Nat.mod_lt _ (by decide)
  have heq : i = j ↔ j / 32 = i / 32 ∧ i % 32 = j % 32 := by omega
  rw [getFlags_eq, getFlags_eq, setFlags]
  by_cases hw : j / 32 = i / 32
  · rw [hw, Function.update_self, BitVec.getLsbD_or, BitVec.getLsbD_twoPow]
    simp [heq, hw, hi, Bool.or_comm]
  · rw [Function.update_of_ne hw]
    simp [heq, hw]

theorem getFlags_createBbt (numBlock : Nat) (flagged : Nat → Bool) (j : Nat) :
    getFlags (createBbt numBlock flagged) j = (decide (1 ≤ j ∧ j < numBlock) && flagged j) := by
  have hfold : ∀ (blocks : List Nat) (arr : Flags),
      getFlags (blocks.foldl (fun arr b => if flagged b then setFlags arr b else arr) arr) j =
        (getFlags arr j || (decide (j ∈ blocks) && flagged j)) := by
    intro blocks
    induction blocks with
    | nil => simp
    | cons b blocks ih =>
      intro arr
      rw [List.foldl_cons, ih]
      by_cases hb : b = j
      · subst hb
        cases flagged b <;> simp [getFlags_setFlags]
      · have hmem : j ∈ b :: blocks ↔ j ∈ blocks := by simp [Ne.symm hb]
        simp only [hmem]
        split <;> simp [getFlags_setFlags, hb]
  have hzero : getFlags (fun _ => 0#32) j = false := by simp [getFlags_eq]
  have hrange : j ∈ List.range' 1 (numBlock - 1) ↔ 1 ≤ j ∧ j < numBlock := by
    rw [List.mem_range'_1]
    omega
  rw [createBbt, hfold, hzero, Bool.false_or]
  simp only [hrange]

-- ---------------------------------------------------------------------------
-- The table
-- ---------------------------------------------------------------------------

structure SkipState where
  goodNum : Nat
  skipBlock : Nat
  table : Nat → UInt8

/-- The first loop of `create_skip_table`, over the blocks that are left. -/
def skipLoop (bbt : Flags) : List Nat → SkipState → SkipState
  | [], s => s
  | bbiBlock :: rest, s =>
    if getFlags bbt bbiBlock = false then
      skipLoop bbt rest ⟨s.goodNum + 1, s.skipBlock + 1,
        Function.update s.table s.skipBlock (UInt8.ofNat (bbiBlock - s.goodNum))⟩
    else if bbiBlock - s.goodNum = 0xFF then s
    else skipLoop bbt rest s

def createSkipTable (numBlock : Nat) (bbt : Flags) (table : Nat → UInt8) : Nat → UInt8 :=
  let s := skipLoop bbt (List.range' 1 (numBlock - 1)) ⟨1, 1, Function.update table 0 0⟩
  -- the second loop
  fun k => if s.skipBlock ≤ k ∧ k < numBlock then 0xFF else s.table k

/-- `get_good_block`: the result, and the page number it leaves. -/
def getGoodBlock (blkShift : Nat) (table : Nat → UInt8) (pageId : UInt32) : Int × UInt32 :=
  let blkNum := pageId.toNat / 2 ^ blkShift
  let skipNum := table blkNum
  if skipNum = 0xFF then (-1, pageId)
  else (0, UInt32.ofNat ((blkNum + skipNum.toNat) * 2 ^ blkShift + pageId.toNat % 2 ^ blkShift))

/-- A chip whose pages have 32-bit numbers; `before` is what is in the table when the driver
starts. -/
structure Chip where
  numBlock : Nat
  blkShift : Nat
  flagged : Nat → Bool
  before : Nat → UInt8
  numBlock_le : numBlock ≤ maxBlocks
  pages_le : numBlock * 2 ^ blkShift ≤ 2 ^ 32

namespace Chip

variable (c : Chip)

def Good (b : Nat) : Prop := b = 0 ∨ c.flagged b = false

instance : DecidablePred c.Good := fun b => inferInstanceAs (Decidable (b = 0 ∨ _))

def skip : Nat → UInt8 := createSkipTable c.numBlock (createBbt c.numBlock c.flagged) c.before

def NthGood (k b : Nat) : Prop := b < c.numBlock ∧ c.Good b ∧ Nat.count c.Good b = k

def blockOf (page : UInt32) : Nat := page.toNat / 2 ^ c.blkShift

def pageInBlock (page : UInt32) : Nat := page.toNat % 2 ^ c.blkShift

/-- The table leads every logical block to the good block of that number, or marks it as
unmapped; and so does the translation of page numbers. -/
structure SkipsBad : Prop where
  entry : ∀ k < c.numBlock, c.skip k = 0xFF ∨ c.NthGood k (k + (c.skip k).toNat)
  unmapped : ∀ k < c.numBlock, c.skip k = 0xFF ↔ (¬∃ b, c.NthGood k b) ∨
    ∃ b, c.NthGood k b ∧ 254 < Nat.count (fun b => ¬c.Good b) b
  mapped : ∀ p, c.blockOf p < c.numBlock → c.skip (c.blockOf p) ≠ 0xFF →
    ∃ q, getGoodBlock c.blkShift c.skip p = (0, q) ∧ c.blockOf q < c.numBlock ∧
      c.Good (c.blockOf q) ∧ c.pageInBlock q = c.pageInBlock p
  increasing : ∀ p p' q q', c.blockOf p < c.blockOf p' → c.blockOf p' < c.numBlock →
    getGoodBlock c.blkShift c.skip p = (0, q) → getGoodBlock c.blkShift c.skip p' = (0, q') →
    c.blockOf q < c.blockOf q'

end Chip

-- ---------------------------------------------------------------------------
-- The loop
-- ---------------------------------------------------------------------------

section Loop

variable {good : Nat → Prop} [DecidablePred good]

theorem exists_of_lt_count (h : k < Nat.count good n) :
    ∃ b < n, good b ∧ Nat.count good b = k := by
  induction n with
  | zero => simp at h
  | succ n ih =>
    rw [Nat.count_succ] at h
    by_cases hk : k < Nat.count good n
    · obtain ⟨b, hb, hg, hc⟩ := ih hk
      exact ⟨b, by omega, hg, hc⟩
    · split at h
      next hg => exact ⟨n, by omega, hg, by omega⟩
      next => omega

theorem count_add_count_not (good : Nat → Prop) [DecidablePred good] (n : Nat) :
    Nat.count good n + Nat.count (fun b => ¬good b) n = n := by
  induction n with
  | zero => rfl
  | succ n ih =>
    rw [Nat.count_succ, Nat.count_succ]
    by_cases hg : good n
    · simp only [hg, not_true_eq_false, if_true, if_false]
      omega
    · simp only [hg, not_false_eq_true, if_true, if_false]
      omega

structure Filled (good : Nat → Prop) [DecidablePred good] (b : Nat) (s : SkipState) : Prop where
  goodNum : s.goodNum = Nat.count good b
  skipBlock : s.skipBlock = Nat.count good b
  few : b ≤ Nat.count good b + 255
  entries : ∀ p < b, good p → s.table (Nat.count good p) = UInt8.ofNat (p - Nat.count good p)

theorem Filled.on_good (h : Filled good b s) (hb : good b) :
    Filled good (b + 1) ⟨s.goodNum + 1, s.skipBlock + 1,
      Function.update s.table s.skipBlock (UInt8.ofNat (b - s.goodNum))⟩ := by
  have hcount : Nat.count good (b + 1) = Nat.count good b + 1 := by
    rw [Nat.count_succ, if_pos hb]
  refine ⟨?_, ?_, ?_, ?_⟩
  · rw [hcount, h.goodNum]
  · rw [hcount, h.skipBlock]
  · have := h.few
    omega
  · intro p hp hg
    dsimp only
    rw [h.skipBlock, h.goodNum]
    by_cases hpb : p = b
    · rw [hpb, Function.update_self]
    · have hlt : Nat.count good p < Nat.count good b := Nat.count_strict_mono hg (by omega)
      rw [Function.update_of_ne (by omega)]
      exact h.entries p (by omega) hg

theorem Filled.on_bad (h : Filled good b s) (hb : ¬good b) (hfew : b - s.goodNum ≠ 0xFF) :
    Filled good (b + 1) s := by
  have hcount : Nat.count good (b + 1) = Nat.count good b := by
    rw [Nat.count_succ, if_neg hb, Nat.add_zero]
  rw [h.goodNum] at hfew
  refine ⟨hcount ▸ h.goodNum, hcount ▸ h.skipBlock, ?_, ?_⟩
  · have := h.few
    omega
  · intro p hp hg
    refine h.entries p ?_ hg
    have hpb : p ≠ b := by
      rintro rfl
      exact hb hg
    omega

theorem skipLoop_filled {bbt : Flags} (hbbt : ∀ b, 1 ≤ b → b < n → (getFlags bbt b = false ↔ good b))
    (hb : 1 ≤ b) (hn : b + m = n) (h : Filled good b s) :
    ∃ e ≤ n, Filled good e (skipLoop bbt (List.range' b m) s) ∧
      (e = n ∨ ¬good e ∧ e = Nat.count good e + 255) := by
  induction m generalizing b s with
  | zero => exact ⟨b, by omega, h, .inl (by omega)⟩
  | succ m ih =>
    have hflag := hbbt b hb (by omega)
    rw [List.range'_succ, skipLoop]
    by_cases hg : good b
    · rw [if_pos (hflag.mpr hg)]
      exact ih (by omega) (by omega) (h.on_good hg)
    · rw [if_neg (mt hflag.mp hg)]
      split
      next hbreak =>
        rw [h.goodNum] at hbreak
        exact ⟨b, by omega, h, .inr ⟨hg, by omega⟩⟩
      next hfew => exact ih (by omega) (by omega) (h.on_bad hg hfew)

end Loop

namespace Chip

variable (c : Chip)

theorem getFlags_iff (hb : 1 ≤ b) (hlt : b < c.numBlock) :
    getFlags (createBbt c.numBlock c.flagged) b = false ↔ c.Good b := by
  rw [getFlags_createBbt, Good]
  simp [hb, hlt, Nat.ne_of_gt hb]

/-- What is in the table: the distance to the good blocks up to a block `e`, and the mark
behind them. -/
theorem skip_filled (hpos : 0 < c.numBlock) :
    ∃ e ≤ c.numBlock, e ≤ Nat.count c.Good e + 255 ∧
      (∀ p < e, c.Good p → c.skip (Nat.count c.Good p) = UInt8.ofNat (p - Nat.count c.Good p)) ∧
      (∀ k, Nat.count c.Good e ≤ k → k < c.numBlock → c.skip k = 0xFF) ∧
      (e = c.numBlock ∨ ¬c.Good e ∧ e = Nat.count c.Good e + 255) := by
  have hzero : c.Good 0 := .inl rfl
  have hinit : Filled c.Good 1 ⟨1, 1, Function.update c.before 0 0⟩ := by
    have hcount : Nat.count c.Good 1 = 1 := by
      rw [Nat.count_succ, if_pos hzero]
      rfl
    refine ⟨hcount.symm, hcount.symm, by omega, fun p hp _ => ?_⟩
    obtain rfl : p = 0 := by omega
    rfl
  obtain ⟨e, hle, hf, hend⟩ := skipLoop_filled (fun b hb hlt => c.getFlags_iff hb hlt)
    (le_refl 1) (by omega : 1 + (c.numBlock - 1) = c.numBlock) hinit
  refine ⟨e, hle, hf.few, ?_, ?_, hend⟩
  · intro p hp hg
    have hlt : Nat.count c.Good p < Nat.count c.Good e := Nat.count_strict_mono hg hp
    have hnot : ¬(Nat.count c.Good e ≤ Nat.count c.Good p ∧ Nat.count c.Good p < c.numBlock) := by
      omega
    simp only [skip, createSkipTable, hf.skipBlock, if_neg hnot]
    exact hf.entries p hp hg
  · intro k hk hlt
    simp only [skip, createSkipTable, hf.skipBlock, if_pos (And.intro hk hlt)]

theorem NthGood.unique {c : Chip} (h : c.NthGood k b) (h' : c.NthGood k b') : b = b' :=
  Nat.count_injective h.2.1 h'.2.1 (h.2.2.trans h'.2.2.symm)

theorem skip_of_nthGood (h : c.NthGood k b) :
    (b ≤ k + 254 → c.skip k = UInt8.ofNat (b - k)) ∧ (k + 254 < b → c.skip k = 0xFF) := by
  obtain ⟨hlt, hg, rfl⟩ := h
  obtain ⟨e, hle, hfew, hentries, hmarks, hend⟩ := c.skip_filled (by omega)
  have hself : Nat.count c.Good b ≤ b := Nat.count_le _
  by_cases hb : b < e
  · have hentry := hentries b hb hg
    refine ⟨fun _ => hentry, fun hfar => ?_⟩
    -- the distance is at most 255 here
    have hfew' : b ≤ Nat.count c.Good b + 255 := by
      have hbad := count_add_count_not c.Good b
      have hbad' := count_add_count_not c.Good e
      have hmono : Nat.count (fun b => ¬c.Good b) b ≤ Nat.count (fun b => ¬c.Good b) e :=
        Nat.count_monotone _ hb.le
      omega
    rw [hentry, show b - Nat.count c.Good b = 255 by omega]
    rfl
  · have hmono : Nat.count c.Good e ≤ Nat.count c.Good b := Nat.count_monotone _ (by omega)
    refine ⟨fun hnear => ?_, fun _ => hmarks _ hmono (by omega)⟩
    rcases hend with rfl | ⟨hbad, he⟩
    · omega
    · -- the loop stopped at a bad block, so more than 255 of them are in front
      have hcount := count_add_count_not c.Good b
      have hcount' := count_add_count_not c.Good e
      have hne : e ≠ b := by
        rintro rfl
        exact hbad hg
      have hstrict : Nat.count (fun b => ¬c.Good b) e < Nat.count (fun b => ¬c.Good b) b :=
        Nat.count_strict_mono hbad (by omega)
      omega

theorem skip_of_not_nthGood (hk : k < c.numBlock) (h : ¬∃ b, c.NthGood k b) :
    c.skip k = 0xFF := by
  obtain ⟨e, hle, -, -, hmarks, -⟩ := c.skip_filled (by omega)
  refine hmarks k ?_ hk
  by_contra hlt
  obtain ⟨b, hb, hg, hc⟩ := exists_of_lt_count (Nat.lt_of_not_le hlt)
  exact h ⟨b, by omega, hg, hc⟩

theorem ofNat_ne_mark (h : d ≤ 254) : UInt8.ofNat d ≠ 0xFF ∧ (UInt8.ofNat d).toNat = d := by
  have hnat : (UInt8.ofNat d).toNat = d := by
    rw [UInt8.toNat_ofNat', Nat.mod_eq_of_lt (by omega)]
  refine ⟨fun he => ?_, hnat⟩
  rw [he] at hnat
  have : (0xFF : UInt8).toNat = 255 := rfl
  omega

theorem skip_ne_mark (hk : k < c.numBlock) (h : c.skip k ≠ 0xFF) :
    c.NthGood k (k + (c.skip k).toNat) := by
  by_cases hex : ∃ b, c.NthGood k b
  · obtain ⟨b, hb⟩ := hex
    obtain ⟨hnear, hfar⟩ := c.skip_of_nthGood hb
    have hle : b ≤ k + 254 := by
      by_contra hgt
      exact h (hfar (by omega))
    have hkb : k ≤ b := hb.2.2 ▸ Nat.count_le _
    rw [hnear hle, (ofNat_ne_mark (by omega)).2, Nat.add_sub_cancel' hkb]
    exact hb
  · exact absurd (c.skip_of_not_nthGood hk hex) h

theorem skip_eq_mark (hk : k < c.numBlock) :
    c.skip k = 0xFF ↔ (¬∃ b, c.NthGood k b) ∨
      ∃ b, c.NthGood k b ∧ 254 < Nat.count (fun b => ¬c.Good b) b := by
  have hbad : ∀ b, c.NthGood k b → Nat.count (fun b => ¬c.Good b) b + k = b := fun b hb => by
    have := count_add_count_not c.Good b
    have := hb.2.2
    omega
  constructor
  · intro h
    by_cases hex : ∃ b, c.NthGood k b
    · obtain ⟨b, hb⟩ := hex
      refine .inr ⟨b, hb, ?_⟩
      by_contra hfew
      have hsum := hbad b hb
      rw [(c.skip_of_nthGood hb).1 (by omega)] at h
      exact (ofNat_ne_mark (by omega)).1 h
    · exact .inl hex
  · rintro (hex | ⟨b, hb, hmany⟩)
    · exact c.skip_of_not_nthGood hk hex
    · have hsum := hbad b hb
      exact (c.skip_of_nthGood hb).2 (by omega)

theorem getGoodBlock_eq (hk : c.blockOf p < c.numBlock) (h : c.skip (c.blockOf p) ≠ 0xFF) :
    ∃ q, getGoodBlock c.blkShift c.skip p = (0, q) ∧
      c.blockOf q = c.blockOf p + (c.skip (c.blockOf p)).toNat ∧
      c.pageInBlock q = c.pageInBlock p := by
  obtain ⟨hlt, -, -⟩ := c.skip_ne_mark hk h
  have hpos : 0 < 2 ^ c.blkShift := Nat.two_pow_pos _
  have hmod : p.toNat % 2 ^ c.blkShift < 2 ^ c.blkShift := Nat.mod_lt _ hpos
  have hnat : (UInt32.ofNat ((c.blockOf p + (c.skip (c.blockOf p)).toNat) * 2 ^ c.blkShift +
      p.toNat % 2 ^ c.blkShift)).toNat =
      (c.blockOf p + (c.skip (c.blockOf p)).toNat) * 2 ^ c.blkShift + p.toNat % 2 ^ c.blkShift := by
    have hle := Nat.mul_le_mul_right (2 ^ c.blkShift) hlt
    have hpages := c.pages_le
    rw [Nat.succ_mul] at hle
    rw [UInt32.toNat_ofNat', Nat.mod_eq_of_lt (by omega)]
  refine ⟨_, if_neg h, ?_, ?_⟩
  · refine (congrArg (· / 2 ^ c.blkShift) hnat).trans ?_
    rw [Nat.mul_comm, Nat.mul_add_div hpos, Nat.div_eq_of_lt hmod, Nat.add_zero]
  · refine (congrArg (· % 2 ^ c.blkShift) hnat).trans ?_
    rw [Nat.mul_comm, Nat.mul_add_mod, Nat.mod_mod]
    rfl

theorem getGoodBlock_mapped (h : getGoodBlock c.blkShift c.skip p = (0, q)) :
    c.skip (c.blockOf p) ≠ 0xFF := by
  intro hmark
  have : getGoodBlock c.blkShift c.skip p = (-1, p) := if_pos hmark
  rw [this] at h
  cases h

/-- Logical blocks go to the good blocks, in their order. -/
theorem skipsBad : c.SkipsBad where
  entry k hk := by
    by_cases h : c.skip k = 0xFF
    · exact .inl h
    · exact .inr (c.skip_ne_mark hk h)
  unmapped k hk := c.skip_eq_mark hk
  mapped p hk h := by
    obtain ⟨q, hq, hblock, hpage⟩ := c.getGoodBlock_eq hk h
    obtain ⟨hlt, hgood, -⟩ := c.skip_ne_mark hk h
    exact ⟨q, hq, hblock ▸ hlt, hblock ▸ hgood, hpage⟩
  increasing p p' q q' hlt hk' hq hq' := by
    have hk : c.blockOf p < c.numBlock := lt_trans hlt hk'
    have hne := c.getGoodBlock_mapped hq
    have hne' := c.getGoodBlock_mapped hq'
    obtain ⟨r, hr, hblock, -⟩ := c.getGoodBlock_eq hk hne
    obtain ⟨r', hr', hblock', -⟩ := c.getGoodBlock_eq hk' hne'
    cases hq.symm.trans hr
    cases hq'.symm.trans hr'
    rw [hblock, hblock']
    obtain ⟨-, -, hc⟩ := c.skip_ne_mark hk hne
    obtain ⟨-, -, hc'⟩ := c.skip_ne_mark hk' hne'
    by_contra hle
    have hmono := Nat.count_monotone c.Good (Nat.le_of_not_lt hle)
    omega

end Chip

end BismarckPreloader.Snaf
