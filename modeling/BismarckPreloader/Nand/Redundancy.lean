import Mathlib.Data.Finset.Card
import Mathlib.Data.Finset.Range
import BismarckPreloader.Nand.UbootLoader

/-!
# Damaged copies of U-Boot

U-Boot is stored from block 1 on as several copies of the same chunks, one copy
after the other, possibly with pages of other kinds in between. Any of the pages
may be unreadable. `UbootLayout` is such a flash; chunk page `k` is chunk
`k % total` of copy `k / total`.

`Loaded` is the invariant of the scan once a chunk page was recognised: the table
marks exactly the chunks seen in a readable page, the count is their number, and
DRAM holds them. `run_of_loaded` follows the rest of the flash from there.
`redundancyComplete_iff` is the result: the loader makes full use of the copies,
except for an image of one chunk that is readable in the last copy only.
-/

namespace BismarckPreloader.Nand

structure UbootImage (b : Board) where
  total : Nat
  numCopy : Nat
  chunk : Nat → Nat → UInt8
  total_pos : 0 < total
  numCopy_pos : 0 < numCopy
  fits : total * b.pageSize ≤ b.maxUbootSize

structure UbootImage.ChunkPage {b : Board} (img : UbootImage b) (k : Nat) (p : PageRead) : Prop where
  signature : p.oob.signature = signatureUboot
  idxChunk : p.oob.idxChunk.toNat = k % img.total
  idxCopy : p.oob.idxCopy.toNat = k / img.total
  totalChunk : p.oob.totalChunk.toNat = img.total
  numCopy : p.oob.numCopy.toNat = img.numCopy
  data : ∀ j < b.pageSize, p.data j = img.chunk (k % img.total) j

/-- What a read at a place of the layout gives. A page of another kind lacks the
signature and has an index inside the table. -/
inductive UbootImage.Holds {b : Board} (img : UbootImage b) : Option Nat → PageRead → Prop
  | chunk (k : Nat) (p : PageRead) (hs : p.sts ≠ eccCtrlErr) (hp : img.ChunkPage k p) :
      img.Holds (some k) p
  | other (p : PageRead) (hs : p.sts ≠ eccCtrlErr) (hsig : p.oob.signature ≠ signatureUboot)
      (hidx : p.oob.idxChunk.toNat < b.maxUbootSize / b.pageSize) :
      img.Holds none p
  | unreadable (place : Option Nat) (p : PageRead) (hs : p.sts = eccCtrlErr) :
      img.Holds place p

structure UbootLayout (b : Board) extends UbootImage b where
  block0 : List PageRead
  slots : List (Option Nat × PageRead)
  block0_length : block0.length = 64
  order : slots.filterMap Prod.fst = List.range (numCopy * total)
  holds : ∀ x ∈ slots, toUbootImage.Holds x.1 x.2

namespace UbootLayout

variable {b : Board} (L : UbootLayout b)

def flash : List PageRead := L.block0 ++ L.slots.map Prod.snd

def Readable (c i : Nat) : Prop :=
  ∃ p, (some (c * L.total + i), p) ∈ L.slots ∧ p.sts ≠ eccCtrlErr

def Seen (H : List (Option Nat × PageRead)) (i : Nat) : Prop :=
  ∃ k p, (some k, p) ∈ H ∧ p.sts ≠ eccCtrlErr ∧ k % L.total = i

def AllSeen (H : List (Option Nat × PageRead)) : Prop := ∀ i < L.total, L.Seen H i

def InDram (m : Mem) (i : Nat) : Prop :=
  ∀ j < b.pageSize, m (b.eccDecodedUbootAddr + b.pageSize * i + j) = L.chunk i j

/-- The loader makes full use of the copies: it loads the image whenever each
chunk can be read somewhere, and reports a failure otherwise. -/
def RedundancyComplete (dram : Mem) : Prop :=
  ((∀ i < L.total, ∃ c < L.numCopy, L.Readable c i) →
    ∃ s, eccUbootToDram b dram L.flash = .ret (L.total, s) ∧ ∀ i < L.total, L.InDram s.dram i) ∧
  ((∃ i < L.total, ∀ c < L.numCopy, ¬ L.Readable c i) →
    ∃ v s, eccUbootToDram b dram L.flash = .ret (v, s) ∧ v < 0)

-- ---------------------------------------------------------------------------
-- Places and chunks
-- ---------------------------------------------------------------------------

theorem total_le_table : L.total ≤ b.maxUbootSize / b.pageSize :=
  (Nat.le_div_iff_mul_le b.pageSize_pos).mpr L.fits

theorem keys_split {H R : List (Option Nat × PageRead)} (h : L.slots = H ++ (some k, p) :: R) :
    k < L.numCopy * L.total ∧ (∀ k' q, (some k', q) ∈ H → k' < k) ∧
      ∀ k' q, (some k', q) ∈ R → k < k' ∧ k' < L.numCopy * L.total := by
  have ho := L.order
  rw [h, List.filterMap_append, List.filterMap_cons_some (f := Prod.fst) rfl,
    List.range_eq_range'] at ho
  obtain ⟨n, hn, hH, hR⟩ := List.range'_eq_append_iff.mp ho.symm
  obtain ⟨rfl, hpos, hR⟩ := List.range'_eq_cons_iff.mp hR.symm
  refine ⟨by omega, ?_, ?_⟩
  · intro k' q hm
    have : k' ∈ H.filterMap Prod.fst := List.mem_filterMap.mpr ⟨_, hm, rfl⟩
    rw [hH, List.mem_range'_1] at this
    omega
  · intro k' q hm
    have : k' ∈ R.filterMap Prod.fst := List.mem_filterMap.mpr ⟨_, hm, rfl⟩
    rw [hR, List.mem_range'_1] at this
    omega

theorem mem_lt (h : (some k, p) ∈ L.slots) : k < L.numCopy * L.total := by
  obtain ⟨H, R, hs⟩ := List.append_of_mem h
  exact (L.keys_split hs).1

theorem mod_lt_total (k : Nat) : k % L.total < L.total := Nat.mod_lt _ L.total_pos

theorem last_iff (k : Nat) :
    k / L.total + 1 = L.numCopy ∧ k % L.total + 1 = L.total ↔ k + 1 = L.numCopy * L.total := by
  have hsum := Nat.div_add_mod k L.total
  have hlt := L.mod_lt_total k
  constructor
  · rintro ⟨hc, hi⟩
    rw [← hc, Nat.add_mul, Nat.mul_comm]
    omega
  · intro h
    have hc : k / L.total + 1 = L.numCopy := by
      have h1 : k / L.total < L.numCopy := Nat.div_lt_of_lt_mul (by rw [Nat.mul_comm]; omega)
      have h2 : L.total * (k / L.total + 1) ≤ L.total * L.numCopy := Nat.mul_le_mul_left _ h1
      by_contra hne
      have h3 : L.total * (k / L.total + 2) ≤ L.total * L.numCopy :=
        Nat.mul_le_mul_left _ (by omega)
      rw [Nat.mul_add] at h3
      rw [Nat.mul_comm] at h
      omega
    refine ⟨hc, ?_⟩
    rw [← hc, Nat.add_mul, Nat.mul_comm] at h
    omega

theorem lastOfAll_iff (hp : L.ChunkPage k p) :
    p.oob.LastOfAll ↔ k + 1 = L.numCopy * L.total := by
  rw [PlrOob.LastOfAll, hp.idxChunk, hp.idxCopy, hp.totalChunk, hp.numCopy, L.last_iff]

theorem chunkPage (hm : (some k, p) ∈ L.slots) (hs : p.sts ≠ eccCtrlErr) : L.ChunkPage k p := by
  cases L.holds _ hm with
  | chunk _ _ _ hp => exact hp
  | unreadable _ _ hu => exact absurd hu hs

theorem seen_slots_iff (hi : i < L.total) :
    L.Seen L.slots i ↔ ∃ c < L.numCopy, L.Readable c i := by
  constructor
  · rintro ⟨k, p, hm, hs, rfl⟩
    refine ⟨k / L.total, Nat.div_lt_of_lt_mul (Nat.mul_comm .. ▸ L.mem_lt hm), p, ?_, hs⟩
    rwa [Nat.mul_comm, Nat.div_add_mod]
  · rintro ⟨c, -, p, hm, hs⟩
    exact ⟨_, p, hm, hs, by rw [Nat.mul_comm, Nat.mul_add_mod, Nat.mod_eq_of_lt hi]⟩

theorem seen_append {H R : List (Option Nat × PageRead)} :
    L.Seen (H ++ R) i ↔ L.Seen H i ∨ L.Seen R i := by
  constructor
  · rintro ⟨k, p, hm, hs, rfl⟩
    rcases List.mem_append.mp hm with hm | hm
    · exact .inl ⟨k, p, hm, hs, rfl⟩
    · exact .inr ⟨k, p, hm, hs, rfl⟩
  · rintro (⟨k, p, hm, hs, rfl⟩ | ⟨k, p, hm, hs, rfl⟩)
    · exact ⟨k, p, List.mem_append_left _ hm, hs, rfl⟩
    · exact ⟨k, p, List.mem_append_right _ hm, hs, rfl⟩

theorem seen_singleton : L.Seen [x] i ↔ ∃ k, x.1 = some k ∧ x.2.sts ≠ eccCtrlErr ∧ k % L.total = i := by
  constructor
  · rintro ⟨k, p, hm, hs, rfl⟩
    obtain rfl := List.mem_singleton.mp hm
    exact ⟨k, rfl, hs, rfl⟩
  · rintro ⟨k, hk, hs, rfl⟩
    exact ⟨k, x.2, by rw [← hk]; simp, hs, rfl⟩

-- ---------------------------------------------------------------------------
-- The invariant
-- ---------------------------------------------------------------------------

open scoped Classical in
/-- The table, the count and DRAM agree with the chunks seen in the places `H`. -/
structure Tracks (H : List (Option Nat × PageRead)) (s : LoaderState) : Prop where
  length : s.pageValidTable.length = b.maxUbootSize / b.pageSize
  marked : ∀ i, L.Seen H i → s.pageValidTable[i]? = some 1
  free : ∀ i < b.maxUbootSize / b.pageSize, ¬ L.Seen H i → s.pageValidTable[i]? = some 0
  count : s.cntValidPage = {i ∈ Finset.range L.total | L.Seen H i}.card
  dram : ∀ i, L.Seen H i → L.InDram s.dram i

/-- The loader knows the image: `uboot_idx` is the copy of a chunk page that no
readable one in `H` precedes. -/
structure Knows (H : List (Option Nat × PageRead)) (s : LoaderState) : Prop where
  pages : s.totalUbootPages = L.total
  copies : s.totalUbootCopies = L.numCopy
  first : ∃ k₀, s.ubootIdx = k₀ / L.total ∧
    ∀ k p, (some k, p) ∈ H → p.sts ≠ eccCtrlErr → k₀ ≤ k

/-- The state after the places `H` once a chunk page was recognised, with chunks
still missing. -/
structure Loaded (H : List (Option Nat × PageRead)) (s : LoaderState) : Prop where
  tracks : L.Tracks H s
  knows : L.Knows H s
  short : s.cntValidPage < L.total

def Settled (v : Int) (s : LoaderState) : Prop :=
  (L.AllSeen L.slots ∧ v = L.total ∧ ∀ i < L.total, L.InDram s.dram i) ∨
    (¬ L.AllSeen L.slots ∧ v < 0)

def OnTrack (H : List (Option Nat × PageRead)) : LoaderOutcome → Prop
  | .next s => L.Loaded H s
  | .ret (v, s) => L.Settled v s
  | .halt _ => False

variable {L}

theorem Tracks.count_le (ht : L.Tracks H s) : s.cntValidPage ≤ L.total := by
  classical
  rw [ht.count]
  exact (Finset.card_filter_le ..).trans (by simp)

theorem Tracks.count_eq_iff (ht : L.Tracks H s) : s.cntValidPage = L.total ↔ L.AllSeen H := by
  classical
  have h := Finset.card_filter_eq_iff (s := Finset.range L.total) (p := L.Seen H)
  rw [Finset.card_range] at h
  rw [ht.count, h]
  simp [AllSeen]

theorem Tracks.append (ht : L.Tracks H s) (hx : ∀ i, L.Seen [x] i → L.Seen H i) :
    L.Tracks (H ++ [x]) s := by
  have hseen : L.Seen (H ++ [x]) = L.Seen H := by
    funext i
    exact propext (L.seen_append.trans ⟨fun h => h.elim id (hx i), .inl⟩)
  exact {
    length := ht.length
    marked := by rw [hseen]; exact ht.marked
    free := by rw [hseen]; exact ht.free
    count := by rw [hseen]; exact ht.count
    dram := by rw [hseen]; exact ht.dram }

theorem Tracks.adopt (ht : L.Tracks H s) : L.Tracks H (s.adopt o) :=
  ⟨ht.length, ht.marked, ht.free, ht.count, ht.dram⟩

theorem Knows.append (hk : L.Knows H s) (hsplit : L.slots = H ++ x :: R)
    (hH : ∃ k p, (some k, p) ∈ H ∧ p.sts ≠ eccCtrlErr) : L.Knows (H ++ [x]) s := by
  obtain ⟨k₀, hidx, hmin⟩ := hk.first
  refine ⟨hk.pages, hk.copies, k₀, hidx, ?_⟩
  intro k p hm hs
  rcases List.mem_append.mp hm with hm | hm
  · exact hmin k p hm hs
  · obtain rfl := List.mem_singleton.mp hm
    obtain ⟨k₁, p₁, hm₁, hs₁⟩ := hH
    exact (hmin k₁ p₁ hm₁ hs₁).trans ((L.keys_split hsplit).2.1 k₁ p₁ hm₁).le

theorem Tracks.store (ht : L.Tracks H s) (hs : p.sts ≠ eccCtrlErr)
    (hnew : ¬ L.Seen H (k % L.total))
    (hdata : ∀ j < b.pageSize, p.data j = L.chunk (k % L.total) j) :
    L.Tracks (H ++ [(some k, p)]) (s.store b (k % L.total) p.data) := by
  classical
  have hseen : ∀ i, L.Seen (H ++ [(some k, p)]) i ↔ L.Seen H i ∨ i = k % L.total := by
    intro i
    rw [L.seen_append, L.seen_singleton]
    simp [hs, eq_comm]
  have hlt : k % L.total < s.pageValidTable.length := by
    rw [ht.length]
    exact (L.mod_lt_total k).trans_le L.total_le_table
  refine ⟨?_, ?_, ?_, ?_, ?_⟩
  · simp [ht.length]
  · intro i hi
    by_cases hik : i = k % L.total
    · subst hik
      simp [hlt]
    · rw [LoaderState.store_pageValidTable, List.getElem?_set_ne (Ne.symm hik)]
      exact ht.marked i (((hseen i).mp hi).resolve_right hik)
  · intro i hi hn
    have hik : i ≠ k % L.total := fun h => hn ((hseen i).mpr (.inr h))
    rw [LoaderState.store_pageValidTable, List.getElem?_set_ne (Ne.symm hik)]
    exact ht.free i hi fun h => hn ((hseen i).mpr (.inl h))
  · have hinsert : {i ∈ Finset.range L.total | L.Seen (H ++ [(some k, p)]) i} =
        insert (k % L.total) {i ∈ Finset.range L.total | L.Seen H i} := by
      ext i
      simp only [hseen, Finset.mem_filter, Finset.mem_range, Finset.mem_insert]
      have := L.mod_lt_total k
      grind
    rw [hinsert, Finset.card_insert_of_notMem (by simp [hnew]), LoaderState.store_cntValidPage,
      ht.count]
  · intro i hi j hj
    by_cases hik : i = k % L.total
    · subst hik
      rw [LoaderState.store_dram, Mem.copy_inside _ _ hj, hdata j hj]
    · rw [LoaderState.store_dram, Mem.copy_other_slot _ _ (Ne.symm hik) hj]
      exact ht.dram i (((hseen i).mp hi).resolve_right hik) j hj

theorem no_chunk_after (hsplit : L.slots = H ++ R) (hm : (some k, p) ∈ H) (hk : k₀ ≤ k)
    (hcopy : k₀ / L.total + 1 = L.numCopy) (hchunk : k % L.total + 1 = L.total) :
    ∀ x ∈ R, x.1 = none := by
  rintro ⟨place, q⟩ hx
  cases place with
  | none => rfl
  | some k' =>
    exfalso
    obtain ⟨A, B, rfl⟩ := List.append_of_mem hm
    rw [List.append_assoc, List.cons_append] at hsplit
    have hlt := (L.keys_split hsplit).2.2 k' q (List.mem_append_right _ hx)
    have hdiv : L.total * (k₀ / L.total) ≤ L.total * (k / L.total) :=
      Nat.mul_le_mul_left _ (Nat.div_le_div_right hk)
    have hsum := Nat.div_add_mod k L.total
    have hall : L.numCopy * L.total = L.total * (k₀ / L.total) + L.total := by
      rw [← hcopy, Nat.add_mul, Nat.mul_comm, Nat.one_mul]
    omega

theorem giveUpTest_onTrack (hsplit : L.slots = H ++ R) (hl : L.Loaded H s) (hi : L.Seen H i) :
    L.OnTrack H (giveUpTest s i) := by
  unfold giveUpTest
  split
  next h =>
    obtain ⟨k₀, hidx, hmin⟩ := hl.knows.first
    obtain ⟨k, p, hm, hs, rfl⟩ := hi
    rw [hidx, hl.knows.copies, hl.knows.pages] at h
    have hnone := no_chunk_after hsplit hm (hmin k p hm hs) h.1 h.2
    refine .inr ⟨?_, by decide⟩
    intro ha
    apply hl.short.ne
    rw [hl.tracks.count_eq_iff]
    intro i hi
    have hseen := ha i hi
    rw [hsplit, L.seen_append] at hseen
    refine hseen.resolve_right ?_
    rintro ⟨k', q, hm', -, -⟩
    exact absurd (hnone _ hm') (by simp)
  next => exact hl

theorem copyChunk_onTrack (hsplit : L.slots = H ++ (some k, p) :: R) (ht : L.Tracks H s)
    (hk : L.Knows (H ++ [(some k, p)]) s) (hs : p.sts ≠ eccCtrlErr)
    (hnew : ¬ L.Seen H (k % L.total))
    (hdata : ∀ j < b.pageSize, p.data j = L.chunk (k % L.total) j) :
    L.OnTrack (H ++ [(some k, p)]) (copyChunk b s (k % L.total) p.data) := by
  have hlt := L.mod_lt_total k
  have ht' := ht.store hs hnew hdata
  have hsplit' : L.slots = (H ++ [(some k, p)]) ++ R := by simp [hsplit]
  have hwindow : b.pageSize * (k % L.total) + b.pageSize ≤ b.maxUbootSize := by
    calc b.pageSize * (k % L.total) + b.pageSize = (k % L.total + 1) * b.pageSize := by
          rw [Nat.add_mul, Nat.one_mul, Nat.mul_comm]
      _ ≤ L.total * b.pageSize := Nat.mul_le_mul_right _ hlt
      _ ≤ b.maxUbootSize := L.fits
  have htable : k % L.total < s.pageValidTable.length := by
    rw [ht.length]
    exact hlt.trans_le L.total_le_table
  unfold copyChunk
  rw [if_neg (by omega), if_pos htable]
  dsimp only
  split
  next hfull =>
    -- the count says that every chunk is there
    rw [LoaderState.store_totalUbootPages, hk.pages, ht'.count_eq_iff] at hfull
    refine .inl ⟨?_, by rw [LoaderState.store_totalUbootPages, hk.pages], ?_⟩
    · intro i hi
      rw [hsplit', L.seen_append]
      exact .inl (hfull i hi)
    · intro i hi
      exact ht'.dram i (hfull i hi)
  next hfull =>
    rw [LoaderState.store_totalUbootPages, hk.pages] at hfull
    have hshort := lt_of_le_of_ne ht'.count_le hfull
    exact giveUpTest_onTrack hsplit' ⟨ht', ⟨hk.pages, hk.copies, hk.first⟩, hshort⟩
      (L.seen_append.mpr (.inr (L.seen_singleton.mpr ⟨k, rfl, hs, rfl⟩)))

theorem not_seen_of_none : ¬ L.Seen [(none, p)] i := by
  rw [L.seen_singleton]
  simp

theorem not_seen_of_unreadable (hs : p.sts = eccCtrlErr) : ¬ L.Seen [(place, p)] i := by
  rw [L.seen_singleton]
  simp [hs]

theorem ubootPass_onTrack (hsplit : L.slots = H ++ x :: R) (hl : L.Loaded H s)
    (hH : ∃ k p, (some k, p) ∈ H ∧ p.sts ≠ eccCtrlErr) :
    L.OnTrack (H ++ [x]) (ubootPass b s x.2) := by
  have hsplit' : L.slots = (H ++ [x]) ++ R := by simp [hsplit]
  have h0 : s.totalUbootPages ≠ 0 := by
    rw [hl.knows.pages]
    exact L.total_pos.ne'
  have hstay : (∀ i, L.Seen [x] i → L.Seen H i) → L.Loaded (H ++ [x]) s := fun hx =>
    ⟨hl.tracks.append hx, hl.knows.append hsplit hH, hl.short⟩
  obtain ⟨place, p⟩ := x
  cases L.holds (place, p) (by simp [hsplit]) with
  | unreadable _ _ hs =>
    rw [ubootPass_of_unreadable hs]
    exact hstay fun i h => absurd h (not_seen_of_unreadable hs)
  | other _ hs hsig hidx =>
    have hl' := hstay fun i h => absurd h not_seen_of_none
    by_cases hseen : L.Seen H p.oob.idxChunk.toNat
    · have := hl.tracks.marked _ hseen
      simp only [ubootPass, hs, h0, this, if_false]
      exact giveUpTest_onTrack hsplit' hl' (L.seen_append.mpr (.inl hseen))
    · have := hl.tracks.free _ hidx hseen
      simp only [ubootPass, hs, h0, this, hsig, if_false, ne_eq, not_false_eq_true, if_true]
      exact hl'
  | chunk k _ hs hp =>
    by_cases hseen : L.Seen H (k % L.total)
    · have hl' := hstay fun i h => by
        obtain ⟨k', hk', -, rfl⟩ := L.seen_singleton.mp h
        cases hk'
        exact hseen
      have := hl.tracks.marked _ hseen
      simp only [ubootPass, hs, h0, hp.idxChunk, this, if_false]
      exact giveUpTest_onTrack hsplit' hl' (L.seen_append.mpr (.inl hseen))
    · have hfree := hl.tracks.free _ ((L.mod_lt_total k).trans_le L.total_le_table) hseen
      have ht : Takes s p.oob := ⟨hp.signature, by rw [if_neg h0, hp.idxChunk, hfree]⟩
      rw [ubootPass_of_takes hs ht, adopted, if_neg h0, hp.idxChunk]
      exact copyChunk_onTrack hsplit hl.tracks (hl.knows.append hsplit hH) hs hseen hp.data

theorem run_of_loaded (hsplit : L.slots = H ++ R) (hl : L.Loaded H s)
    (hH : ∃ k p, (some k, p) ∈ H ∧ p.sts ≠ eccCtrlErr) :
    L.OnTrack L.slots (Scan.run (ubootPass b) s (R.map Prod.snd)) := by
  induction R generalizing H s with
  | nil =>
    rw [hsplit, List.append_nil]
    exact hl
  | cons x R ih =>
    have hstep := ubootPass_onTrack hsplit hl hH
    rw [List.map_cons]
    cases hx : ubootPass b s x.2 with
    | next s' =>
      rw [hx] at hstep
      rw [Scan.run_cons_next hx]
      obtain ⟨k, p, hm, hs⟩ := hH
      exact ih (by simp [hsplit]) hstep ⟨k, p, List.mem_append_left _ hm, hs⟩
    | ret r =>
      rw [hx] at hstep
      rw [Scan.run_cons_ret hx]
      exact hstep
    | halt e =>
      rw [hx] at hstep
      exact hstep.elim

def Blank (H : List (Option Nat × PageRead)) : Prop :=
  ∀ k p, (some k, p) ∈ H → p.sts = eccCtrlErr

theorem Blank.not_seen (hH : Blank H) : ¬ L.Seen H i := by
  rintro ⟨k, p, hm, hs, -⟩
  exact hs (hH k p hm)

theorem tracks_init (hH : Blank H) : L.Tracks H (.init b dram) := by
  classical
  have hseen : ∀ i, ¬ L.Seen H i := fun i => hH.not_seen
  refine ⟨by simp [LoaderState.init], ?_, ?_, ?_, ?_⟩
  · exact fun i h => absurd h (hseen i)
  · intro i hi _
    simp [LoaderState.init, hi]
  · simp [LoaderState.init, hseen]
  · exact fun i h => absurd h (hseen i)

theorem ubootPass_blank (hx : x ∈ L.slots) (hb : Blank [x]) :
    ubootPass b (.init b dram) x.2 = .next (.init b dram) := by
  obtain ⟨place, p⟩ := x
  cases L.holds (place, p) hx with
  | unreadable _ _ hs => exact ubootPass_of_unreadable hs
  | other _ hs hsig hidx => simp [ubootPass, hs, LoaderState.init, hsig]
  | chunk k _ hs => exact absurd (hb k p (by simp)) hs

theorem blank_cons : Blank (x :: H) ↔ Blank [x] ∧ Blank H := by
  constructor
  · intro h
    exact ⟨fun k p hm => h k p (by simp_all), fun k p hm => h k p (List.mem_cons_of_mem _ hm)⟩
  · rintro ⟨hx, hH⟩ k p hm
    rcases List.mem_cons.mp hm with he | hm
    · exact hx k p (by simp [he])
    · exact hH k p hm

theorem run_blank (dram : Mem) (hH : ∀ x ∈ H, x ∈ L.slots) (hb : Blank H) :
    Scan.run (ubootPass b) (.init b dram) (H.map Prod.snd) = .next (.init b dram) := by
  induction H with
  | nil => rfl
  | cons x H ih =>
    obtain ⟨hx, hb⟩ := blank_cons.mp hb
    rw [List.map_cons, Scan.run_cons_next (ubootPass_blank (hH x (by simp)) hx)]
    exact ih (fun y hy => hH y (by simp [hy])) hb

theorem blank_or_first (slots : List (Option Nat × PageRead)) :
    Blank slots ∨ ∃ H k p R, slots = H ++ (some k, p) :: R ∧ Blank H ∧ p.sts ≠ eccCtrlErr := by
  induction slots with
  | nil => exact .inl (by simp [Blank])
  | cons x slots ih =>
    by_cases hx : Blank [x]
    · rcases ih with hb | ⟨H, k, q, R, rfl, hH, hs⟩
      · exact .inl (blank_cons.mpr ⟨hx, hb⟩)
      · exact .inr ⟨x :: H, k, q, R, rfl, blank_cons.mpr ⟨hx, hH⟩, hs⟩
    · simp only [Blank, List.mem_singleton, not_forall] at hx
      obtain ⟨k, q, rfl, hs⟩ := hx
      exact .inr ⟨[], k, q, slots, rfl, by simp [Blank], hs⟩

-- ---------------------------------------------------------------------------
-- The whole scan
-- ---------------------------------------------------------------------------

theorem drop_flash : L.flash.drop (1 <<< 6) = L.slots.map Prod.snd := by
  rw [flash]
  exact List.drop_left' L.block0_length

theorem run_split (dram : Mem) (hsplit : L.slots = H ++ (some k, p) :: R) (hb : Blank H) :
    Scan.run (ubootPass b) (.init b dram) (L.slots.map Prod.snd) =
      Scan.run (ubootPass b) (.init b dram) (p :: R.map Prod.snd) := by
  have hH : ∀ x ∈ H, x ∈ L.slots := fun x hx => hsplit ▸ List.mem_append_left _ hx
  rw [hsplit, List.map_append, Scan.run_append (run_blank dram hH hb), List.map_cons]

theorem settled_of_run (h : L.OnTrack L.slots (Scan.run (ubootPass b) (.init b dram) (L.slots.map Prod.snd))) :
    ∃ v s, eccUbootToDram b dram L.flash = .ret (v, s) ∧ L.Settled v s := by
  unfold eccUbootToDram
  rw [drop_flash]
  cases hrun : Scan.run (ubootPass b) (.init b dram) (L.slots.map Prod.snd) with
  | next s =>
    rw [hrun] at h
    exact ⟨-3, s, rfl, .inr ⟨fun ha => h.short.ne (h.tracks.count_eq_iff.mpr ha), by decide⟩⟩
  | ret r =>
    rw [hrun] at h
    exact ⟨r.1, r.2, rfl, h⟩
  | halt e =>
    rw [hrun] at h
    exact h.elim

theorem redundancyComplete_iff_settled (h : eccUbootToDram b dram L.flash = .ret (v, s)) :
    L.RedundancyComplete dram ↔ L.Settled v s := by
  have hall : L.AllSeen L.slots ↔ ∀ i < L.total, ∃ c < L.numCopy, L.Readable c i := by
    unfold AllSeen
    exact forall₂_congr fun i hi => L.seen_slots_iff hi
  have hnone : ¬ L.AllSeen L.slots ↔ ∃ i < L.total, ∀ c < L.numCopy, ¬ L.Readable c i := by
    rw [hall]
    push Not
    rfl
  unfold RedundancyComplete Settled
  rw [← hall, ← hnone, h]
  by_cases ha : L.AllSeen L.slots
  · simp only [ha, forall_true_left, not_true_eq_false, false_imp_iff, and_true, true_and,
      false_and, or_false]
    constructor
    · rintro ⟨s', he, hd⟩
      cases he
      exact ⟨rfl, hd⟩
    · rintro ⟨rfl, hd⟩
      exact ⟨s, rfl, hd⟩
  · simp only [ha, false_imp_iff, true_and, not_false_eq_true, forall_true_left, false_and,
      false_or]
    constructor
    · rintro ⟨v', s', he, hv⟩
      cases he
      exact hv
    · exact fun hv => ⟨v, s, rfl, hv⟩

theorem ubootPass_first (dram : Mem) (hsplit : L.slots = H ++ (some k, p) :: R) (hb : Blank H)
    (hs : p.sts ≠ eccCtrlErr) (hk : k + 1 ≠ L.numCopy * L.total) :
    L.OnTrack (H ++ [(some k, p)]) (ubootPass b (.init b dram) p) := by
  have hp : L.ChunkPage k p := L.chunkPage (by simp [hsplit]) hs
  have ht : Takes (.init b dram) p.oob := ⟨hp.signature, fun hl => hk ((L.lastOfAll_iff hp).mp hl)⟩
  rw [ubootPass_of_takes hs ht, hp.idxChunk]
  refine copyChunk_onTrack hsplit (tracks_init hb).adopt
    ⟨hp.totalChunk, hp.numCopy, k, hp.idxCopy, ?_⟩ hs hb.not_seen hp.data
  intro k' q hm hq
  rcases List.mem_append.mp hm with hm | hm
  · exact absurd (hb k' q hm) hq
  · cases List.mem_singleton.mp hm
    exact le_rfl

variable (L)

def OnlyLastCopy : Prop :=
  L.total = 1 ∧ L.Readable (L.numCopy - 1) 0 ∧ ∀ c < L.numCopy - 1, ¬ L.Readable c 0

theorem settled_neg (hv : v < 0) : L.Settled v s ↔ ¬ L.AllSeen L.slots := by
  have : v ≠ L.total := by omega
  simp [Settled, this, hv]

theorem onlyLastCopy_iff (hk : k + 1 = L.numCopy * L.total) (hm : (some k, p) ∈ L.slots)
    (hs : p.sts ≠ eccCtrlErr)
    (honly : ∀ k' q, (some k', q) ∈ L.slots → q.sts ≠ eccCtrlErr → k' = k) :
    L.OnlyLastCopy ↔ L.AllSeen L.slots := by
  constructor
  · rintro ⟨h1, -, -⟩ i hi
    exact ⟨k, p, hm, hs, by rw [h1, Nat.mod_one]; omega⟩
  · intro ha
    have hlast := ((L.last_iff k).mpr hk).2
    obtain ⟨k₀, q, hm₀, hs₀, h0⟩ := ha 0 L.total_pos
    rw [honly k₀ q hm₀ hs₀] at h0
    have h1 : L.total = 1 := by omega
    rw [h1, Nat.mul_one] at hk
    refine ⟨h1, ⟨p, ?_, hs⟩, ?_⟩
    · rw [h1, Nat.mul_one, Nat.add_zero, ← hk]
      exact hm
    · rintro c hc ⟨q, hq, hsq⟩
      have := honly _ q hq hsq
      rw [h1] at this
      omega

theorem settled_of_first (dram : Mem) (hsplit : L.slots = H ++ (some k, p) :: R)
    (hb : Blank H) (hs : p.sts ≠ eccCtrlErr) (hk : k + 1 ≠ L.numCopy * L.total) :
    ∃ v s, eccUbootToDram b dram L.flash = .ret (v, s) ∧ L.Settled v s := by
  apply settled_of_run
  have hfirst := ubootPass_first dram hsplit hb hs hk
  rw [run_split dram hsplit hb]
  cases hx : ubootPass b (.init b dram) p with
  | next s =>
    rw [hx] at hfirst
    rw [Scan.run_cons_next hx]
    exact run_of_loaded (by simp [hsplit]) hfirst ⟨k, p, by simp, hs⟩
  | ret r =>
    rw [hx] at hfirst
    rw [Scan.run_cons_ret hx]
    exact hfirst
  | halt e =>
    rw [hx] at hfirst
    exact hfirst.elim

theorem redundancyComplete_iff (dram : Mem) :
    L.RedundancyComplete dram ↔ ¬ L.OnlyLastCopy := by
  rcases blank_or_first L.slots with hb | ⟨H, k, p, R, hsplit, hb, hs⟩
  · -- no chunk page can be read: the scan runs to the end of the flash
    have hrun := run_blank (L := L) dram (fun x hx => hx) hb
    have hret : eccUbootToDram b dram L.flash = .ret (-3, .init b dram) := by
      rw [eccUbootToDram, drop_flash, hrun]
    have hnot : ¬ L.AllSeen L.slots := fun ha => hb.not_seen (ha 0 L.total_pos)
    refine iff_of_true ((redundancyComplete_iff_settled hret).mpr (.inr ⟨hnot, by decide⟩)) ?_
    rintro ⟨-, ⟨p, hm, hs⟩, -⟩
    exact hs (hb _ p hm)
  · have hkeys := L.keys_split hsplit
    by_cases hk : k + 1 = L.numCopy * L.total
    · -- the very last page is the only one that can be read
      have hp : L.ChunkPage k p := L.chunkPage (by simp [hsplit]) hs
      have hlast := ubootPass_of_lastOfAll (b := b) (s := .init b dram) hs rfl hp.signature
        ((L.lastOfAll_iff hp).mpr hk)
      have hret : eccUbootToDram b dram L.flash =
          .ret (-1, (LoaderState.init b dram).adopt p.oob) := by
        rw [eccUbootToDram, drop_flash, run_split dram hsplit hb, Scan.run_cons_ret hlast]
      have honly : ∀ k' q, (some k', q) ∈ L.slots → q.sts ≠ eccCtrlErr → k' = k := by
        intro k' q hm hq
        rw [hsplit, List.mem_append, List.mem_cons] at hm
        rcases hm with hm | hm | hm
        · exact absurd (hb k' q hm) hq
        · cases hm
          rfl
        · have := hkeys.2.2 k' q hm
          omega
      rw [redundancyComplete_iff_settled hret, L.settled_neg (by decide),
        L.onlyLastCopy_iff hk (by simp [hsplit]) hs honly]
    · obtain ⟨v, s, hret, hv⟩ := L.settled_of_first dram hsplit hb hs hk
      refine iff_of_true ((redundancyComplete_iff_settled hret).mpr hv) ?_
      rintro ⟨h1, -, hnone⟩
      have hlt := hkeys.1
      rw [h1, Nat.mul_one] at hk hlt
      refine hnone k (by omega) ⟨p, ?_, hs⟩
      rw [h1, Nat.mul_one, Nat.add_zero, hsplit]
      simp

end UbootLayout

def erasedPage : PageRead where
  sts := 0
  oob := ⟨0xFFFFFFFF, 0xFFFF, 0xFFFF, 0xFFFFFFFF, 0xFFFFFFFF⟩
  data := fun _ => 0xFF

def onePage : PageRead where
  sts := 0
  oob := ⟨signatureUboot, 0, 0, 1, 1⟩
  data := fun _ => 0

def onePageLayout : UbootLayout board9603cvd where
  total := 1
  numCopy := 1
  chunk := fun _ _ => 0
  total_pos := by decide
  numCopy_pos := by decide
  fits := by decide
  block0 := List.replicate 64 erasedPage
  slots := [(some 0, onePage)]
  block0_length := by decide
  order := by decide
  holds := by
    intro x hx
    obtain rfl := List.mem_singleton.mp hx
    exact .chunk 0 onePage (by decide) ⟨rfl, rfl, rfl, rfl, rfl, fun _ _ => rfl⟩

theorem onePageLayout_not_loaded : ¬ onePageLayout.RedundancyComplete (fun _ => 0) := by
  rintro ⟨h, -⟩
  have hread : ∀ i < 1, ∃ c < 1, onePageLayout.Readable c i := by
    intro i hi
    obtain rfl : i = 0 := by omega
    exact ⟨0, by decide, onePage, List.mem_singleton.mpr rfl, by decide⟩
  have hret : eccUbootToDram board9603cvd (fun _ => 0) onePageLayout.flash =
      .ret (-1, (LoaderState.init board9603cvd fun _ => 0).adopt onePage.oob) := by
    rfl
  obtain ⟨s, hs, -⟩ := h hread
  rw [hret] at hs
  simp [onePageLayout] at hs

end BismarckPreloader.Nand
