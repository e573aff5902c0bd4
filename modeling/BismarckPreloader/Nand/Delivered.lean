import Mathlib.Data.Finset.Card
import Mathlib.Data.Finset.Range
import BismarckPreloader.Nand.Ranges

/-!
# What the loader delivers

`imageDram` is what a successful load leaves in DRAM, read off the flash: of the pages of a
chunk, the first one that is readable. It is right for every flash on which the first page of
U-Boot says how many chunks there are and all of them are numbered below that, whatever else
the pages say and however many of them are damaged or missing (`eccUbootToDram_delivers`).
-/

namespace BismarckPreloader.Nand

def PageRead.Recognised (p : PageRead) : Prop :=
  p.sts ≠ eccCtrlErr ∧ p.oob.signature = signatureUboot

instance (p : PageRead) : Decidable p.Recognised := inferInstanceAs (Decidable (_ ∧ _))

def chunkPage (pages : List PageRead) (i : Nat) : Option PageRead :=
  pages.find? fun p => p.Recognised ∧ p.oob.idxChunk.toNat = i

def imageDram (b : Board) (dram : Mem) (pages : List PageRead) : Mem := fun a =>
  if a < b.eccDecodedUbootAddr then dram a
  else match chunkPage pages ((a - b.eccDecodedUbootAddr) / b.pageSize) with
    | some p => p.data ((a - b.eccDecodedUbootAddr) % b.pageSize)
    | none => dram a

structure Numbered (pages : List PageRead) (n : Nat) : Prop where
  pos : 0 < n
  first : ∀ p, pages.find? (·.Recognised) = some p → p.oob.totalChunk.toNat = n
  below : ∀ p ∈ pages, p.Recognised → p.oob.idxChunk.toNat < n

variable {b : Board} {dram : Mem} {seen pages : List PageRead} {p : PageRead} {n : Nat}

theorem chunkPage_append (i : Nat) : chunkPage (seen ++ [p]) i =
    (chunkPage seen i).or (if p.Recognised ∧ p.oob.idxChunk.toNat = i then some p else none) := by
  rw [chunkPage, List.find?_append, chunkPage]
  congr 1
  by_cases h : p.Recognised ∧ p.oob.idxChunk.toNat = i
  · rw [if_pos h]
    exact List.find?_cons_of_pos (decide_eq_true h)
  · rw [if_neg h]
    exact List.find?_cons_of_neg (by simpa using h)

theorem chunkPage_append_old (h : p.Recognised → (chunkPage seen p.oob.idxChunk.toNat).isSome) :
    chunkPage (seen ++ [p]) = chunkPage seen := by
  funext i
  rw [chunkPage_append]
  split
  next hp =>
    obtain ⟨q, hq⟩ := Option.isSome_iff_exists.mp (h hp.1)
    rw [← hp.2, hq, Option.some_or]
  next => rw [Option.or_none]

theorem chunkPage_append_new (hp : p.Recognised)
    (hnew : chunkPage seen p.oob.idxChunk.toNat = none) (i : Nat) :
    chunkPage (seen ++ [p]) i =
      if i = p.oob.idxChunk.toNat then some p else chunkPage seen i := by
  rw [chunkPage_append]
  split
  next h => rw [if_pos h.2.symm, ← h.2, hnew, Option.none_or]
  next h => rw [if_neg fun he => h ⟨hp, he.symm⟩, Option.or_none]

theorem imageDram_append_old (h : p.Recognised → (chunkPage seen p.oob.idxChunk.toNat).isSome) :
    imageDram b dram (seen ++ [p]) = imageDram b dram seen := by
  unfold imageDram
  rw [chunkPage_append_old h]

theorem imageDram_append_new (hp : p.Recognised)
    (hnew : chunkPage seen p.oob.idxChunk.toNat = none) :
    imageDram b dram (seen ++ [p]) = (imageDram b dram seen).copy
      (b.eccDecodedUbootAddr + b.pageSize * p.oob.idxChunk.toNat) p.data b.pageSize := by
  funext a
  have hsize := b.pageSize_pos
  simp only [imageDram, Mem.copy]
  by_cases hlow : a < b.eccDecodedUbootAddr
  · rw [if_pos hlow, if_neg (by omega), if_pos hlow]
  · obtain ⟨k, rfl⟩ : ∃ k, a = b.eccDecodedUbootAddr + k :=
      ⟨_, (Nat.add_sub_cancel' (by omega)).symm⟩
    have hsum := Nat.div_add_mod k b.pageSize
    have hmod := Nat.mod_lt k hsize
    rw [if_neg hlow, if_neg hlow, Nat.add_sub_cancel_left, chunkPage_append_new hp hnew]
    by_cases hi : k / b.pageSize = p.oob.idxChunk.toNat
    · rw [if_pos hi, ← hi, if_pos (by omega)]
      exact congrArg p.data (by omega)
    · rw [if_neg hi, if_neg]
      rintro ⟨hle, hlt⟩
      refine hi (Nat.div_eq_of_lt_le ?_ ?_)
      · rw [Nat.mul_comm]
        omega
      · rw [Nat.add_mul, Nat.one_mul, Nat.mul_comm]
        omega

-- ---------------------------------------------------------------------------
-- Passes
-- ---------------------------------------------------------------------------

/-- A page that is not taken is passed by, unless the call faults or gives up at it. -/
theorem ubootPass_passes_by (hs : p.sts ≠ eccCtrlErr) (ht : ¬ Takes s p.oob) :
    (∃ e, ubootPass b s p = .halt e) ∨ (∃ v s', ubootPass b s p = .ret (v, s') ∧ v < 0) ∨
      ubootPass b s p = .next s ∧ (p.oob.signature = signatureUboot →
        s.totalUbootPages ≠ 0 ∧ s.pageValidTable[p.oob.idxChunk.toNat]? ≠ some 0) := by
  unfold ubootPass
  rw [if_neg hs]
  dsimp only
  split
  next h0 =>
    split
    next hsig => exact .inr (.inr ⟨rfl, fun hsig' => absurd hsig' hsig⟩)
    next hsig =>
      have hlast : p.oob.LastOfAll := by
        by_contra hn
        exact ht ⟨by simpa using hsig, by simp [h0, hn]⟩
      rw [if_pos (by simpa [LoaderState.adopt, PlrOob.LastOfAll] using hlast)]
      exact .inr (.inl ⟨_, _, rfl, by decide⟩)
  next h0 =>
    split
    next => exact .inl ⟨_, rfl⟩
    next valid hv =>
      split
      next hz =>
        split
        next hsig => exact .inr (.inr ⟨rfl, fun hsig' => absurd hsig' hsig⟩)
        next hsig => exact absurd ⟨by simpa using hsig, by simp [h0, hv, hz]⟩ ht
      next hz =>
        unfold giveUpTest
        split
        · exact .inr (.inl ⟨_, _, rfl, by decide⟩)
        · exact .inr (.inr ⟨rfl, fun _ => ⟨h0, by simpa [hv] using hz⟩⟩)

theorem ubootPass_next_of_not_takes (hs : p.sts ≠ eccCtrlErr) (ht : ¬ Takes s p.oob)
    (h : ubootPass b s p = .next s') : s' = s ∧ (p.oob.signature = signatureUboot →
      s.totalUbootPages ≠ 0 ∧ s.pageValidTable[p.oob.idxChunk.toNat]? ≠ some 0) := by
  obtain ⟨e, he⟩ | ⟨v, t, hret, -⟩ | ⟨hnext, hkeep⟩ := ubootPass_passes_by (b := b) hs ht
  · cases h.symm.trans he
  · cases h.symm.trans hret
  · cases h.symm.trans hnext
    exact ⟨rfl, hkeep⟩

theorem copyChunk_ret (h : copyChunk b s i data = .ret (v, s')) (hv : ¬ v < 0) :
    s' = s.store b i data ∧ s'.cntValidPage = s'.totalUbootPages ∧ v = s'.totalUbootPages := by
  unfold copyChunk at h
  split at h
  · cases h
  · split at h
    · dsimp only at h
      split at h
      next heq =>
        cases h
        exact ⟨rfl, heq, rfl⟩
      next =>
        unfold giveUpTest at h
        split at h
        · cases h
          exact absurd (by decide) hv
        · cases h
    · cases h

theorem ubootPass_ret (h : ubootPass b s p = .ret (v, s')) (hv : ¬ v < 0) :
    p.sts ≠ eccCtrlErr ∧ Takes s p.oob ∧
      s' = (adopted s p.oob).store b p.oob.idxChunk.toNat p.data ∧
      s'.cntValidPage = s'.totalUbootPages ∧ v = s'.totalUbootPages := by
  have hs : p.sts ≠ eccCtrlErr := by
    intro hs
    rw [ubootPass_of_unreadable hs] at h
    cases h
  by_cases ht : Takes s p.oob
  · rw [ubootPass_of_takes hs ht] at h
    exact ⟨hs, ht, copyChunk_ret h hv⟩
  · obtain ⟨e, he⟩ | ⟨w, t, hret, hneg⟩ | ⟨hnext, -⟩ := ubootPass_passes_by (b := b) hs ht
    · cases h.symm.trans he
    · cases h.symm.trans hret
      exact absurd hneg hv
    · cases h.symm.trans hnext

-- ---------------------------------------------------------------------------
-- The whole scan
-- ---------------------------------------------------------------------------

structure Holding (b : Board) (dram : Mem) (n : Nat) (seen : List PageRead) (s : LoaderState) :
    Prop where
  none_seen : s.totalUbootPages = 0 → ∀ p ∈ seen, ¬ p.Recognised
  pages : s.totalUbootPages ≠ 0 → s.totalUbootPages = n
  table : ∀ i, s.pageValidTable[i]? = some 0 → chunkPage seen i = none
  free : ∀ i, chunkPage seen i = none → s.pageValidTable[i]? = some 0 ∨ s.pageValidTable[i]? = none
  count : s.cntValidPage = {i ∈ Finset.range n | (chunkPage seen i).isSome}.card
  dram : s.dram = imageDram b dram seen

theorem holding_init : Holding b dram n [] (.init b dram) := by
  have hnone : ∀ i, chunkPage [] i = none := fun _ => rfl
  refine ⟨fun _ p hp => absurd hp List.not_mem_nil, fun h => absurd rfl h, fun i _ => hnone i,
    fun i _ => ?_, ?_, ?_⟩
  · rw [LoaderState.init]
    by_cases hi : i < b.maxUbootSize / b.pageSize
    · exact .inl (by simp [hi])
    · exact .inr (by simpa using hi)
  · simp [LoaderState.init, hnone]
  · funext a
    simp [LoaderState.init, imageDram, hnone]

theorem Holding.fresh (h : Holding b dram n seen s) (ht : Takes s p.oob) :
    chunkPage seen p.oob.idxChunk.toNat = none := by
  obtain ⟨-, hslot⟩ := ht
  split at hslot
  next h0 =>
    refine List.find?_eq_none.mpr fun q hq => ?_
    simpa using fun hr => absurd hr (h.none_seen h0 q hq)
  next => exact h.table _ hslot

theorem Holding.adopted_pages (hn : Numbered pages n) (hpre : seen ++ [p] <+: pages)
    (h : Holding b dram n seen s) (hp : p.Recognised) :
    (adopted s p.oob).totalUbootPages = n := by
  unfold adopted
  split
  next h0 =>
    obtain ⟨rest, rfl⟩ := hpre
    refine hn.first p ?_
    have hskip : seen.find? (fun q => decide q.Recognised) = none :=
      List.find?_eq_none.mpr fun q hq => by simpa using h.none_seen h0 q hq
    rw [List.append_assoc, List.find?_append, hskip, Option.none_or, List.singleton_append]
    exact List.find?_cons_of_pos (decide_eq_true hp)
  next h0 => exact h.pages h0

theorem Holding.store (hn : Numbered pages n) (hpre : seen ++ [p] <+: pages)
    (h : Holding b dram n seen s) (hs : p.sts ≠ eccCtrlErr) (ht : Takes s p.oob) :
    Holding b dram n (seen ++ [p]) ((adopted s p.oob).store b p.oob.idxChunk.toNat p.data) := by
  have hp : p.Recognised := ⟨hs, ht.1⟩
  have hnew := h.fresh ht
  have hpages := h.adopted_pages hn hpre hp
  have hlt : p.oob.idxChunk.toNat < n := hn.below p (hpre.subset (by simp)) hp
  have htable : (adopted s p.oob).pageValidTable = s.pageValidTable := by
    unfold adopted
    split <;> rfl
  have hdram : (adopted s p.oob).dram = s.dram := by
    unfold adopted
    split <;> rfl
  have hnone : ∀ i, chunkPage (seen ++ [p]) i = none ↔
      i ≠ p.oob.idxChunk.toNat ∧ chunkPage seen i = none := by
    intro i
    rw [chunkPage_append_new hp hnew]
    split <;> simp_all
  refine ⟨fun h0 => ?_, fun _ => hpages, fun i hi => ?_, fun i hi => ?_, ?_, ?_⟩
  · exact absurd (hpages.symm.trans h0) hn.pos.ne'
  · rw [LoaderState.store_pageValidTable, htable] at hi
    by_cases hik : i = p.oob.idxChunk.toNat
    · subst hik
      rw [List.getElem?_set_self'] at hi
      cases hv : s.pageValidTable[p.oob.idxChunk.toNat]? <;> simp [hv] at hi
    · rw [List.getElem?_set_ne (Ne.symm hik)] at hi
      exact (hnone i).mpr ⟨hik, h.table i hi⟩
  · obtain ⟨hik, hi⟩ := (hnone i).mp hi
    rw [LoaderState.store_pageValidTable, htable, List.getElem?_set_ne (Ne.symm hik)]
    exact h.free i hi
  · have hinsert : {i ∈ Finset.range n | (chunkPage (seen ++ [p]) i).isSome} =
        insert p.oob.idxChunk.toNat {i ∈ Finset.range n | (chunkPage seen i).isSome} := by
      ext i
      simp only [Finset.mem_filter, Finset.mem_range, Finset.mem_insert,
        chunkPage_append_new hp hnew]
      split <;> simp_all
    rw [hinsert, Finset.card_insert_of_notMem (by simp [hnew]), LoaderState.store_cntValidPage,
      adopted_cntValidPage, h.count]
  · rw [LoaderState.store_dram, hdram, h.dram, imageDram_append_new hp hnew]

theorem Holding.next (hn : Numbered pages n) (hpre : seen ++ [p] <+: pages)
    (h : Holding b dram n seen s) (hpass : ubootPass b s p = .next s') :
    Holding b dram n (seen ++ [p]) s' := by
  by_cases ht : p.sts ≠ eccCtrlErr ∧ Takes s p.oob
  · rw [ubootPass_of_takes ht.1 ht.2] at hpass
    rw [copyChunk_next hpass]
    exact h.store hn hpre ht.1 ht.2
  · obtain ⟨rfl, hold⟩ : s' = s ∧ (p.Recognised →
        s.totalUbootPages ≠ 0 ∧ (chunkPage seen p.oob.idxChunk.toNat).isSome) := by
      by_cases hs : p.sts = eccCtrlErr
      · rw [ubootPass_of_unreadable hs] at hpass
        cases hpass
        exact ⟨rfl, fun hp => absurd hs hp.1⟩
      · obtain ⟨rfl, hkeep⟩ := ubootPass_next_of_not_takes hs (fun h => ht ⟨hs, h⟩) hpass
        refine ⟨rfl, fun hp => ?_⟩
        obtain ⟨h0, hslot⟩ := hkeep hp.2
        refine ⟨h0, Option.isSome_iff_ne_none.mpr fun hnone => ?_⟩
        rcases h.free _ hnone with hfree | hout
        · exact hslot hfree
        · simp [ubootPass, hs, h0, hout] at hpass
    have hsame := chunkPage_append_old fun hp => (hold hp).2
    refine ⟨fun h0 q hq => ?_, h.pages, ?_, ?_, ?_, ?_⟩
    · rcases List.mem_append.mp hq with hq | hq
      · exact h.none_seen h0 q hq
      · obtain rfl := List.mem_singleton.mp hq
        exact fun hp => (hold hp).1 h0
    · rw [hsame]
      exact h.table
    · rw [hsame]
      exact h.free
    · rw [hsame]
      exact h.count
    · rw [h.dram, imageDram_append_old fun hp => (hold hp).2]

theorem holding_of_run (hn : Numbered pages n) (hpre : seen <+: pages)
    (h : Scan.run (ubootPass b) (.init b dram) seen = .next s) : Holding b dram n seen s := by
  refine Scan.run_next_ind (fun seen s => seen <+: pages → Holding b dram n seen s)
    (fun _ => holding_init) ?_ h hpre
  intro seen s x s' ih hx hpre
  exact (ih ((List.prefix_append _ _).trans hpre)).next hn hpre hx

theorem imageDram_of_complete (hn : Numbered pages n) (hpre : seen <+: pages)
    (hall : ∀ i < n, (chunkPage seen i).isSome) :
    imageDram b dram seen = imageDram b dram pages := by
  have hchunk : chunkPage seen = chunkPage pages := by
    funext i
    obtain ⟨rest, rfl⟩ := hpre
    by_cases hi : i < n
    · obtain ⟨q, hq⟩ := Option.isSome_iff_exists.mp (hall i hi)
      rw [chunkPage] at hq
      rw [chunkPage, chunkPage, List.find?_append, hq, Option.some_or]
    · have hnone : ∀ l, (∀ q ∈ l, q ∈ seen ++ rest) → chunkPage l i = none := by
        intro l hl
        refine List.find?_eq_none.mpr fun q hq hr => ?_
        obtain ⟨hr, hidx⟩ := of_decide_eq_true hr
        exact hi (hidx ▸ hn.below q (hl q hq) hr)
      rw [hnone _ fun q hq => List.mem_append_left _ hq, hnone _ fun q hq => hq]
  unfold imageDram
  rw [hchunk]

theorem eccUbootToDram_delivers (hn : Numbered (flash.drop (1 <<< 6)) n)
    (h : eccUbootToDram b dram flash = .ret (v, s)) (hv : ¬ v < 0) :
    v = n ∧ s.dram = imageDram b dram (flash.drop (1 <<< 6)) := by
  have hrun : Scan.run (ubootPass b) (.init b dram) (flash.drop (1 <<< 6)) = .ret (v, s) := by
    unfold eccUbootToDram at h
    split at h
    · cases h
      exact absurd (by decide) hv
    · exact h
  obtain ⟨t, p, ⟨seen, after, hsplit, hseen⟩, hpass⟩ := (Scan.run_eq_iff rfl).mp hrun
  have hpre : seen ++ [p] <+: flash.drop (1 <<< 6) :=
    ⟨after, by rw [hsplit, List.append_assoc]; rfl⟩
  have hhold := holding_of_run hn ((List.prefix_append _ _).trans hpre) hseen
  obtain ⟨hs, ht, rfl, hcnt, rfl⟩ := ubootPass_ret hpass hv
  have hstored := hhold.store hn hpre hs ht
  have hpages : ((adopted t p.oob).store b p.oob.idxChunk.toNat p.data).totalUbootPages = n :=
    hhold.adopted_pages hn hpre ⟨hs, ht.1⟩
  refine ⟨by rw [hpages], ?_⟩
  rw [hstored.dram]
  refine imageDram_of_complete hn hpre fun i hi => ?_
  have hcard := Finset.card_filter_eq_iff (s := Finset.range n)
    (p := fun i => (chunkPage (seen ++ [p]) i).isSome = true)
  rw [Finset.card_range, ← hstored.count, hcnt, hpages] at hcard
  exact hcard.mp rfl i (Finset.mem_range.mpr hi)

end BismarckPreloader.Nand
