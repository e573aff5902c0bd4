import BismarckPreloader.Snaf.Driver

/-!
# Requests of the MTD layer

`UnmappedRefused` asks that a request for a logical block without a physical one fails and
leaves the flash alone. No request ever fails, and a chip with a bad block has at least one
such logical block, so this holds exactly for chips without bad blocks.

`Read.Exact` asks that a read returns the bytes of the logical pages, and 0 only if they
could be decoded. The bytes are always right; the result is 0 whatever the decoder says.
-/

namespace BismarckPreloader.Snaf

namespace Driver

variable (d : Driver)

def blockAt (a : Nat) : Nat := a / 2 ^ d.pageShift / 2 ^ d.blkShift

def Touches (k : Nat) : Request → Prop
  | .read fromAddr len ooblen => ∃ a, d.blockAt a = k ∧
    (fromAddr ≤ a ∧ a < fromAddr + len.toNat ∨ ooblen ≠ 0 ∧ a = fromAddr)
  | .write raw toAddr len _ _ => ∃ a, d.blockAt a = k ∧
    (toAddr ≤ a ∧ a < toAddr + len.toNat ∨ (raw = true ∧ len = 0) ∧ a = toAddr)
  | .erase addr => d.blockAt addr = k
  | .markBad ofs => d.blockAt ofs = k

/-- A request that touches an unmapped block fails and issues nothing for it; and what is
written or erased for different logical blocks are different physical blocks. -/
structure UnmappedRefused : Prop where
  refused : ∀ r k, k < d.numBlock → d.skip k = 0xFF → d.Touches k r →
    (d.run r).1 ≠ 0 ∧ ∀ i ∈ (d.run r).2, d.blockOf i.logical ≠ k
  apart : ∀ r r' i i', i ∈ (d.run r).2 → i' ∈ (d.run r').2 → i.op ≠ .pageRead →
    i'.op ≠ .pageRead → d.blockOf i.logical < d.numBlock → d.blockOf i'.logical < d.numBlock →
    d.blockOf i.logical ≠ d.blockOf i'.logical → d.blockOf i.physical ≠ d.blockOf i'.physical

theorem readLoop_issued (dlen olen page done : UInt32) :
    ∀ i ∈ (d.readLoop dlen olen page done).2.1, i.physical = d.translate i.logical := by
  induction page, done using readLoop.induct d dlen olen with
  | case1 page done h opLen ih =>
    rw [readLoop, dif_pos h]
    rintro i (_ | ⟨_, hi⟩)
    · rfl
    · exact ih i hi
  | case2 page done h =>
    rw [readLoop, dif_neg h]
    simp

theorem writeLoop_issued (dlen page done : UInt32) :
    ∀ i ∈ d.writeLoop dlen page done, i.physical = d.translate i.logical := by
  induction page, done using writeLoop.induct d dlen with
  | case1 page done h opLen ih =>
    rw [writeLoop, dif_pos h]
    rintro i (_ | ⟨_, hi⟩)
    · rfl
    · exact ih i hi
  | case2 page done h =>
    rw [writeLoop, dif_neg h]
    simp

theorem readOob_issued (fromAddr : Nat) (dlen olen : UInt32) :
    ∀ i ∈ (d.readOob fromAddr dlen olen).issued, i.physical = d.translate i.logical := by
  have hoob : ∀ page, ∀ i ∈ (if olen ≠ 0 then [d.issue .pageRead page] else []),
      i.physical = d.translate i.logical := by
    intro page i hi
    split at hi
    · rw [List.mem_singleton.mp hi]
      rfl
    · cases hi
  rw [readOob]
  dsimp only
  split
  · refine List.forall_mem_append.mpr ⟨hoob _, List.forall_mem_cons.mpr ⟨rfl, ?_⟩⟩
    exact d.readLoop_issued _ _ _ _
  · exact List.forall_mem_append.mpr ⟨hoob _, d.readLoop_issued _ _ _ _⟩

theorem writeOob_issued (raw : Bool) (toAddr : Nat) (dlen : UInt32) :
    ∀ i ∈ (d.writeOob raw toAddr dlen).2, i.physical = d.translate i.logical := by
  rw [writeOob]
  split
  · split
    · exact List.forall_mem_cons.mpr ⟨rfl, List.forall_mem_singleton.mpr rfl⟩
    · exact List.forall_mem_singleton.mpr rfl
  · exact d.writeLoop_issued _ _ _

theorem run_issued (r : Request) : ∀ i ∈ (d.run r).2, i.physical = d.translate i.logical := by
  cases r with
  | read fromAddr len ooblen => exact d.readOob_issued fromAddr len ooblen
  | write raw toAddr len ooblen fits => exact d.writeOob_issued raw toAddr len
  | erase addr => exact List.forall_mem_singleton.mpr rfl
  | markBad ofs => exact List.forall_mem_cons.mpr ⟨rfl, List.forall_mem_singleton.mpr rfl⟩

-- ---------------------------------------------------------------------------
-- Chips without bad blocks
-- ---------------------------------------------------------------------------

end Driver

namespace Chip

variable (c : Chip)

theorem skip_last (hb : 1 ≤ b) (hlt : b < c.numBlock) (hbad : c.flagged b = true) :
    c.skip (c.numBlock - 1) = 0xFF := by
  refine c.skip_of_not_nthGood (by omega) ?_
  rintro ⟨p, hp, hgood, hcount⟩
  have hnot : ¬c.Good b := by
    rintro (h0 | hf)
    · omega
    · rw [hbad] at hf
      cases hf
  have hsum := count_add_count_not c.Good p
  have hne : b ≠ p := by
    rintro rfl
    exact hnot hgood
  have hone : Nat.count (fun b => ¬c.Good b) b < Nat.count (fun b => ¬c.Good b) p :=
    Nat.count_strict_mono hnot (by omega)
  omega

theorem skip_of_none_bad (h : ∀ b, 1 ≤ b → b < c.numBlock → c.flagged b = false)
    (hk : k < c.numBlock) : c.skip k = 0 := by
  have hgood : ∀ b < c.numBlock, c.Good b := by
    intro b hb
    by_cases h0 : b = 0
    · exact .inl h0
    · exact .inr (h b (by omega) hb)
  have hcount : ∀ n ≤ c.numBlock, Nat.count c.Good n = n := by
    intro n hn
    induction n with
    | zero => rfl
    | succ n ih => rw [Nat.count_succ, ih (by omega), if_pos (hgood n (by omega))]
  have hnth : c.NthGood k k := ⟨hk, hgood k hk, hcount k hk.le⟩
  rw [(c.skip_of_nthGood hnth).1 (by omega), Nat.sub_self]
  rfl

end Chip

namespace Driver

variable {d : Driver}

theorem UnmappedRefused.none_bad (h : d.UnmappedRefused) :
    ∀ b, 1 ≤ b → b < d.numBlock → d.flagged b = false := by
  intro b hb hlt
  by_contra hbad
  have hmark := d.skip_last hb hlt (Bool.eq_true_of_not_eq_false hbad)
  have haddr : d.blockAt ((d.numBlock - 1) * 2 ^ d.blkShift * 2 ^ d.pageShift) =
      d.numBlock - 1 := by
    rw [blockAt, Nat.mul_div_cancel _ (Nat.two_pow_pos _),
      Nat.mul_div_cancel _ (Nat.two_pow_pos _)]
  exact (h.refused (.erase _) _ (by omega) hmark haddr).1 rfl

/-- Requests for unmapped blocks are refused exactly when there are none, which is when no
block is bad. -/
theorem unmappedRefused_iff (d : Driver) :
    d.UnmappedRefused ↔ ∀ b, 1 ≤ b → b < d.numBlock → d.flagged b = false := by
  refine ⟨UnmappedRefused.none_bad, fun h => ⟨?_, ?_⟩⟩
  · intro r k hk hmark
    rw [d.skip_of_none_bad h hk] at hmark
    exact absurd hmark (by decide)
  · intro r r' i i' hi hi' _ _ hlt hlt' hne
    have hsame : ∀ p, d.blockOf p < d.numBlock → d.blockOf (d.translate p) = d.blockOf p := by
      intro p hp
      have hzero := d.skip_of_none_bad h hp
      obtain ⟨q, hq, hblock, -⟩ := d.getGoodBlock_eq hp (by rw [hzero]; decide)
      rw [translate, hq, hblock, hzero]
      rfl
    rw [d.run_issued r i hi, d.run_issued r' i' hi', hsame _ hlt, hsame _ hlt']
    exact hne

def oneBad : Driver where
  numBlock := 3
  blkShift := 6
  flagged b := b == 1
  before _ := 0
  numBlock_le := by decide
  pages_le := by decide
  pageShift := 11
  pageShift_lt := by decide
  flash _ := ⟨0#32, fun _ => 0⟩
  raw _ _ := 0

/-- Logical block 2 is unmapped and erased all the same. -/
theorem oneBad_not_refused : ¬oneBad.UnmappedRefused := by
  intro h
  exact absurd (h.none_bad 1 (by decide) (by decide)) (by decide)

-- ---------------------------------------------------------------------------
-- Reads
-- ---------------------------------------------------------------------------

end Driver

structure Read extends Driver where
  fromAddr : Nat
  dlen : UInt32
  inside : fromAddr + dlen.toNat ≤ numBlock * 2 ^ blkShift * 2 ^ pageShift
  mapped : ∀ a, fromAddr ≤ a → a < fromAddr + dlen.toNat → toDriver.skip (toDriver.blockAt a) ≠ 0xFF

namespace Read

variable (r : Read)

def physicalPage (a : Nat) : UInt32 :=
  let block := r.blockAt a
  UInt32.ofNat ((block + (r.skip block).toNat) * 2 ^ r.blkShift +
    a / 2 ^ r.pageShift % 2 ^ r.blkShift)

def logicalByte (a : Nat) : UInt8 := (r.flash (r.physicalPage a)).data (a % 2 ^ r.pageShift)

def Decoded (a : Nat) : Prop :=
  isEccDecodeFail (r.flash (r.physicalPage a)).sts = false ∨
    isPlrFirstLoadPart (r.flash (r.physicalPage a)).data = true

def AllDecoded : Prop := ∀ a, r.fromAddr ≤ a → a < r.fromAddr + r.dlen.toNat → r.Decoded a

def result : Driver.ReadResult := r.readOob r.fromAddr r.dlen 0

structure Exact : Prop where
  bytes : r.result.buf = (List.range r.dlen.toNat).map fun k => r.logicalByte (r.fromAddr + k)
  retlen : r.result.retlen = r.dlen
  honest : r.result.ret = 0 → r.AllDecoded
  failed : ¬r.AllDecoded → r.result.ret < 0

end Read

namespace Driver

variable (d : Driver)

def byteAt (a : Nat) : UInt8 :=
  (d.flash (d.translate (UInt32.ofNat (a / 2 ^ d.pageShift)))).data (a % 2 ^ d.pageShift)

theorem pageBytes_eq (P : Nat) (hlen : off + len ≤ 2 ^ d.pageShift) :
    d.pageBytes 0 (UInt32.ofNat P) off len =
      (List.range len).map fun k => d.byteAt (P * 2 ^ d.pageShift + off + k) := by
  rw [pageBytes]
  refine List.map_congr_left fun k hk => ?_
  have hk := List.mem_range.mp hk
  have hlt : off + k < 2 ^ d.pageShift := by omega
  rw [if_neg (by simp), byteAt, Nat.add_assoc, Nat.mul_comm P, Nat.mul_add_div (by omega),
    Nat.div_eq_of_lt hlt, Nat.add_zero, Nat.mul_add_mod, Nat.mod_eq_of_lt hlt]

theorem map_range_split (f : Nat → UInt8) (hle : len ≤ total)
    (hnext : len < total → base + len = next) :
    (List.range len).map (fun k => f (base + k)) ++
        (List.range (total - len)).map (fun k => f (next + k)) =
      (List.range total).map fun k => f (base + k) := by
  obtain ⟨rest, rfl⟩ : ∃ rest, total = len + rest := ⟨total - len, by omega⟩
  rw [List.range_add, List.map_append, List.map_map, Nat.add_sub_cancel_left]
  congr 1
  refine List.map_congr_left fun k hk => ?_
  have hk := List.mem_range.mp hk
  rw [Function.comp_apply, ← hnext (by omega), Nat.add_assoc]

theorem readLoop_eq (dlen : UInt32) (P : Nat) (hdone : done ≤ dlen) :
    (d.readLoop dlen 0 (UInt32.ofNat P) done).1 =
        (List.range (dlen.toNat - done.toNat)).map (fun k => d.byteAt (P * 2 ^ d.pageShift + k)) ∧
      (d.readLoop dlen 0 (UInt32.ofNat P) done).2.2 = dlen := by
  generalize hpage : UInt32.ofNat P = page
  induction page, done using readLoop.induct d dlen 0 generalizing P with
  | case1 page done h opLen ih =>
    obtain ⟨hpos, hle, hsub⟩ := opLen_le (d := d) h
    have hsum := done_add_toNat (d := d) h
    have hdlen : done.toNat < dlen.toNat := h
    have hmin : (snafMin (dlen - done) d.pagesize).toNat =
        min (dlen.toNat - done.toNat) (2 ^ d.pageShift) := by
      rw [snafMin_toNat, hsub, d.pagesize_toNat]
    have hnext : UInt32.ofNat (P + 1) = page + 1 := by
      rw [UInt32.ofNat_add, hpage]
      rfl
    obtain ⟨hbytes, hret⟩ := ih (P + 1) (by
      rw [UInt32.le_iff_toNat_le, hsum]
      omega) hnext
    rw [readLoop, dif_pos h]
    refine ⟨?_, hret⟩
    dsimp only
    rw [hbytes, hsum, ← hpage, d.pageBytes_eq P (by omega)]
    simp only [Nat.add_zero]
    rw [← Nat.sub_sub]
    refine map_range_split d.byteAt hle fun hlt => ?_
    rw [Nat.succ_mul]
    omega
  | case2 page done h =>
    have hge : done = dlen := UInt32.le_antisymm hdone (UInt32.not_lt.mp h)
    rw [readLoop, dif_neg h, hge, Nat.sub_self]
    exact ⟨rfl, rfl⟩

theorem off_toNat (a : Nat) :
    (UInt32.ofNat a &&& (d.pagesize - 1)).toNat = a % 2 ^ d.pageShift := by
  have hpos : 1 ≤ 2 ^ d.pageShift := Nat.one_le_two_pow
  have hone : (1 : UInt32) ≤ d.pagesize := by
    rw [UInt32.le_iff_toNat_le, d.pagesize_toNat]
    exact hpos
  rw [UInt32.toNat_and, UInt32.toNat_sub_of_le _ _ hone, d.pagesize_toNat, UInt32.toNat_ofNat']
  have h1 : (1 : UInt32).toNat = 1 := rfl
  rw [h1, Nat.and_two_pow_sub_one_eq_mod]
  exact Nat.mod_mod_of_dvd a (Nat.pow_dvd_pow 2 d.pageShift_lt.le)

theorem head_toNat {dlen off : UInt32} (hoff : off.toNat < 2 ^ d.pageShift) :
    (snafMin dlen (d.pagesize - off)).toNat = min dlen.toNat (2 ^ d.pageShift - off.toNat) := by
  have hle : off ≤ d.pagesize := by
    rw [UInt32.le_iff_toNat_le, d.pagesize_toNat]
    exact hoff.le
  rw [snafMin_toNat, UInt32.toNat_sub_of_le _ _ hle, d.pagesize_toNat]

theorem readOob_eq (fromAddr : Nat) (dlen : UInt32) :
    (d.readOob fromAddr dlen 0).buf =
        (List.range dlen.toNat).map (fun k => d.byteAt (fromAddr + k)) ∧
      (d.readOob fromAddr dlen 0).retlen = dlen ∧ (d.readOob fromAddr dlen 0).ret = 0 := by
  have hoff := d.off_toNat fromAddr
  have hsplit : fromAddr / 2 ^ d.pageShift * 2 ^ d.pageShift + fromAddr % 2 ^ d.pageShift =
      fromAddr := Nat.div_add_mod' _ _
  have hmod : fromAddr % 2 ^ d.pageShift < 2 ^ d.pageShift := Nat.mod_lt _ (Nat.two_pow_pos _)
  rw [readOob]
  dsimp only
  generalize UInt32.ofNat fromAddr &&& (d.pagesize - 1) = off at hoff ⊢
  split
  next hne =>
    have hmin : (snafMin dlen (d.pagesize - off)).toNat =
        min dlen.toNat (2 ^ d.pageShift - off.toNat) := d.head_toNat (hoff ▸ hmod)
    have hnext : UInt32.ofNat (fromAddr / 2 ^ d.pageShift) + 1 =
        UInt32.ofNat (fromAddr / 2 ^ d.pageShift + 1) := (UInt32.ofNat_add _ 1).symm
    have hop : snafMin dlen (d.pagesize - off) ≤ dlen := by
      rw [UInt32.le_iff_toNat_le, hmin]
      exact Nat.min_le_left _ _
    obtain ⟨hbytes, hret⟩ := d.readLoop_eq dlen (fromAddr / 2 ^ d.pageShift + 1) hop
    rw [hnext]
    refine ⟨?_, hret, rfl⟩
    dsimp only
    rw [hbytes, d.pageBytes_eq _ (by omega), hmin, hoff, hsplit]
    refine map_range_split d.byteAt (by omega) fun hlt => ?_
    rw [Nat.succ_mul]
    omega
  next heq =>
    have hzero : off.toNat = 0 := by
      rw [not_not.mp heq]
      rfl
    obtain ⟨hbytes, hret⟩ := d.readLoop_eq dlen (fromAddr / 2 ^ d.pageShift) (UInt32.zero_le)
    refine ⟨?_, hret, rfl⟩
    dsimp only
    have hbase : fromAddr / 2 ^ d.pageShift * 2 ^ d.pageShift = fromAddr := by omega
    rw [hbytes, hbase]
    rfl

end Driver

namespace Read

variable {r : Read}

theorem translate_eq (ha : r.fromAddr ≤ a) (hlt : a < r.fromAddr + r.dlen.toNat) :
    r.translate (UInt32.ofNat (a / 2 ^ r.pageShift)) = r.physicalPage a := by
  have hin := r.inside
  have hpages := r.pages_le
  have hpage : a / 2 ^ r.pageShift < r.numBlock * 2 ^ r.blkShift := by
    rw [Nat.div_lt_iff_lt_mul (Nat.two_pow_pos _)]
    omega
  have hnat : (UInt32.ofNat (a / 2 ^ r.pageShift)).toNat = a / 2 ^ r.pageShift := by
    rw [UInt32.toNat_ofNat', Nat.mod_eq_of_lt (by omega)]
  have hmapped := r.mapped a ha hlt
  rw [Driver.translate, getGoodBlock, hnat]
  exact congrArg Prod.snd (if_neg hmapped)

theorem result_eq : r.result.buf =
      (List.range r.dlen.toNat).map (fun k => r.logicalByte (r.fromAddr + k)) ∧
    r.result.retlen = r.dlen ∧ r.result.ret = 0 := by
  obtain ⟨hbytes, hrest⟩ := r.readOob_eq r.fromAddr r.dlen
  refine ⟨hbytes.trans (List.map_congr_left fun k hk => ?_), hrest⟩
  have hk := List.mem_range.mp hk
  rw [Driver.byteAt, translate_eq (by omega) (by omega), logicalByte]

theorem Exact.all_decoded (h : r.Exact) : r.AllDecoded := h.honest result_eq.2.2

/-- A read is exact; its result is honest exactly when every page of it decodes or is a
first-load page. -/
theorem exact_iff (r : Read) : r.Exact ↔ r.AllDecoded := by
  refine ⟨Exact.all_decoded, fun h => ?_⟩
  obtain ⟨hbytes, hretlen, -⟩ := result_eq (r := r)
  exact ⟨hbytes, hretlen, fun _ => h, fun hn => absurd h hn⟩

def uncorrectable : Read where
  numBlock := 1
  blkShift := 6
  flagged _ := false
  before _ := 0
  numBlock_le := by decide
  pages_le := by decide
  pageShift := 11
  pageShift_lt := by decide
  flash _ := ⟨eccErrorFlag, fun _ => 0⟩
  raw _ _ := 0
  fromAddr := 0
  dlen := 1
  inside := by decide
  mapped a _ h := by
    obtain rfl : a = 0 := Nat.lt_one_iff.mp (by simpa using h)
    decide

theorem uncorrectable_not_exact : ¬uncorrectable.Exact := by
  intro h
  rcases h.all_decoded 0 (Nat.le_refl 0) (by decide) with hd | hd
  · exact absurd hd (by decide)
  · exact absurd hd (by decide)

end Read

end BismarckPreloader.Snaf
