import Mathlib.Data.Nat.Find
import BismarckPreloader.Nand.PageMap

/-!
# Damaged copies of the preloader

The preloader is stored from page 0 on as several copies of the same chunks, so
page `a` is chunk `a % total` of copy `a / total`. A page is an ordinary page, a
first-load page, or unreadable.

`Stage a a a` is the state of the scan before page `a`: how far `cnt_pge` and the
count have come and which slots are holes, all in terms of the pages before `a`.
`mapPass_stage` is the step lemma. The scan succeeds at a page that is `Done` and
gives up at one that `Quits`; `complete_iff` says when the first kind comes first.
-/

namespace BismarckPreloader.Nand

/-- A read of page `a`. The record of a page that is not ordinary is what happens
to be in the buffer. -/
inductive PlrHolds (total numCopy a : Nat) (p : PlrPageRead) : Prop
  | ordinary (ha : p.Announces) (hchunk : p.oob.idxChunk.toNat = a % total)
      (hcopy : p.oob.idxCopy.toNat = a / total) (htotal : p.oob.totalChunk.toNat = total)
      (hnum : p.oob.numCopy.toNat = numCopy)
  | firstLoad (hfl : isPlrFirstLoadPart p.fl = 1#32) (hidx : p.fl.pageIndex.toNat = a % total)
  | unreadable (hfl : isPlrFirstLoadPart p.fl ≠ 1#32) (hs : isEccDecodeFail p.sts = true)

structure PlrLayout (b : Board) where
  total : Nat
  numCopy : Nat
  pages : List PlrPageRead
  rest : List PlrPageRead
  total_pos : 0 < total
  numCopy_pos : 0 < numCopy
  fits : total ≤ b.plrMapTableSize
  length : pages.length = numCopy * total
  holds : ∀ a p, pages[a]? = some p → PlrHolds total numCopy a p

namespace PlrLayout

variable {b : Board} (L : PlrLayout b)

def flash : List PlrPageRead := L.pages ++ L.rest

def Readable (a : Nat) : Prop := ∃ p ∈ L.pages[a]?, p.slot? ≠ none

def GivesTotal (a : Nat) : Prop := ∃ p ∈ L.pages[a]?, p.Announces

def LastCopy (a : Nat) : Prop :=
  ∃ p ∈ L.pages[a]?, p.oob.idxCopy.toNat + 1 = p.oob.numCopy.toNat

instance : DecidablePred L.Readable := fun _ => inferInstanceAs (Decidable (∃ p ∈ _, _))
instance : DecidablePred L.GivesTotal := fun _ => inferInstanceAs (Decidable (∃ p ∈ _, _))
instance : DecidablePred L.LastCopy := fun _ => inferInstanceAs (Decidable (∃ p ∈ _, _))

def Recoverable : Prop :=
  (∀ i < L.total, ∃ a, L.Readable a ∧ a % L.total = i) ∧ ∃ a, L.GivesTotal a

def Complete : Prop := L.Recoverable → ∃ s, nsuInit b L.flash = .ret (0, s)

def Known (a : Nat) : Prop := ∃ c < a, L.GivesTotal c

/-- The chunk of page `a` is missing when the scan gets there: no page before `a`
left its slot with an address that does not read as a hole. -/
def Missing (a : Nat) : Prop :=
  ∀ c < a, L.Readable c → c % L.total = a % L.total → UInt16.ofNat c = 0xFFFF

instance : DecidablePred L.Known := fun a => inferInstanceAs (Decidable (∃ c < a, _))
instance : DecidablePred L.Missing := fun a => inferInstanceAs (Decidable (∀ c < a, _))

def Fresh (a : Nat) : Prop := L.Readable a ∧ L.Missing a

instance : DecidablePred L.Fresh := fun _ => inferInstanceAs (Decidable (_ ∧ _))

def fills (a : Nat) : Nat := {c ∈ Finset.range a | L.Fresh c}.card

def Done (a : Nat) : Prop := L.Fresh a ∧ L.Known (a + 1) ∧ L.fills (a + 1) = L.total

/-- At page `a` the scan looks whether to give up: at the first page of a copy, or
where the number of chunks becomes known, if that is not in the first copy. -/
def CheckPoint (a : Nat) : Prop :=
  (L.Known a ∧ L.total ∣ a) ∨ (¬ L.Known a ∧ L.GivesTotal a ∧ L.total ≤ a)

instance : DecidablePred L.Done := fun _ => inferInstanceAs (Decidable (_ ∧ _ ∧ _))
instance : DecidablePred L.CheckPoint := fun _ => inferInstanceAs (Decidable (_ ∨ _))

variable {L}

theorem known_succ : L.Known (a + 1) ↔ L.Known a ∨ L.GivesTotal a := by
  constructor
  · rintro ⟨c, hc, hg⟩
    rcases Nat.lt_succ_iff_lt_or_eq.mp hc with hc | rfl
    · exact .inl ⟨c, hc, hg⟩
    · exact .inr hg
  · rintro (⟨c, hc, hg⟩ | hg)
    · exact ⟨c, by omega, hg⟩
    · exact ⟨a, by omega, hg⟩

theorem fills_succ_of_fresh (h : L.Fresh a) : L.fills (a + 1) = L.fills a + 1 := by
  rw [fills, Finset.range_add_one, Finset.filter_insert, if_pos h,
    Finset.card_insert_of_notMem (by simp)]
  rfl

theorem fills_succ_of_not_fresh (h : ¬ L.Fresh a) : L.fills (a + 1) = L.fills a := by
  rw [fills, Finset.range_add_one, Finset.filter_insert, if_neg h]
  rfl

theorem readable_iff (hp : L.pages[a]? = some p) : L.Readable a ↔ p.slot? ≠ none := by
  simp [Readable, hp]

theorem givesTotal_iff (hp : L.pages[a]? = some p) : L.GivesTotal a ↔ p.Announces := by
  simp [GivesTotal, hp]

theorem lastCopy_iff (hp : L.pages[a]? = some p) :
    L.LastCopy a ↔ p.oob.idxCopy.toNat + 1 = p.oob.numCopy.toNat := by
  simp [LastCopy, hp]

-- ---------------------------------------------------------------------------
-- The state on the way through a pass
-- ---------------------------------------------------------------------------

/-- The number of chunks is as before page `k`, the slots and the count as before
page `n`, and `cnt_pge` as before page `a`. A pass moves these on one by one. -/
structure Stage (L : PlrLayout b) (k n a : Nat) (s : MapState) : Prop where
  total : s.totalNumOfChunk = if L.Known k then L.total else 0
  count : s.cntValidChunk = L.fills n
  size : s.plrVmpageTable.length = b.plrMapTableSize
  holes : ∀ i < L.total, s.Hole i ↔
    ∀ c < n, L.Readable c → c % L.total = i → UInt16.ofNat c = 0xFFFF
  cntPge : s.cntPge = if L.Known a then (a - 1) % L.total + 1 else a

theorem not_known_zero : ¬ L.Known 0 := by
  rintro ⟨c, hc, -⟩
  omega

theorem stage_init : L.Stage 0 0 0 (.init b) := by
  refine ⟨by simp [not_known_zero, MapState.init], rfl, by simp [MapState.init], ?_,
    by simp [not_known_zero, MapState.init]⟩
  intro i hi
  have hlt : i < b.plrMapTableSize := hi.trans_le L.fits
  simp [MapState.Hole, MapState.init, hlt]

theorem mod_lt_size (L : PlrLayout b) (a : Nat) : a % L.total < b.plrMapTableSize :=
  (Nat.mod_lt a L.total_pos).trans_le L.fits

theorem Stage.hole_iff (hs : L.Stage k a n s) : s.Hole (a % L.total) ↔ L.Missing a :=
  hs.holes _ (Nat.mod_lt a L.total_pos)

theorem Stage.announce (hs : L.Stage a a a s) (hp : L.pages[a]? = some p) (ha : p.Announces) :
    L.Stage (a + 1) a a (s.announce p.oob) := by
  obtain ⟨ht, hc, hg, hn⟩ := announce_fields s p.oob
  have hk : L.Known (a + 1) := known_succ.mpr (.inr ((givesTotal_iff hp).mpr ha))
  have htotal : p.oob.totalChunk.toNat = L.total := by
    cases L.holds a p hp with
    | ordinary _ _ _ htotal _ => exact htotal
    | firstLoad hfl _ => exact absurd hfl ha.1
    | unreadable _ hu => exact absurd (hu.symm.trans ha.2.1) (by decide)
  refine ⟨?_, by rw [hc, hs.count], by rw [ht, hs.size], ?_, by rw [hg, hs.cntPge]⟩
  · rw [hn, hs.total, htotal, if_pos hk]
    have := L.total_pos
    split <;> split <;> omega
  · unfold MapState.Hole
    rw [ht]
    exact hs.holes

theorem Stage.skip_announce (hs : L.Stage a a a s) (ha : ¬ L.GivesTotal a) :
    L.Stage (a + 1) a a s := by
  have hk : L.Known (a + 1) ↔ L.Known a := by simp [known_succ, ha]
  refine ⟨?_, hs.count, hs.size, hs.holes, hs.cntPge⟩
  rw [hs.total, if_congr hk.symm rfl rfl]

theorem Stage.fill (hs : L.Stage k a n s) (hf : L.Fresh a) :
    L.Stage k (a + 1) n (s.fill (a % L.total) a) := by
  have hlt : a % L.total < s.plrVmpageTable.length := by
    rw [hs.size]
    exact L.mod_lt_size a
  refine ⟨hs.total, ?_, ?_, ?_, hs.cntPge⟩
  · rw [fills_succ_of_fresh hf, ← hs.count]
    rfl
  · rw [← hs.size]
    exact List.length_set
  · intro i hi
    unfold MapState.Hole MapState.fill
    by_cases hia : a % L.total = i
    · subst hia
      rw [List.getElem?_set_self hlt, Option.some.injEq]
      constructor
      · intro he c hc hr hmod
        rcases Nat.lt_succ_iff_lt_or_eq.mp hc with hc | rfl
        · exact hf.2 c hc hr hmod
        · exact he
      · intro h
        exact h a (by omega) hf.1 rfl
    · rw [List.getElem?_set_ne hia]
      refine (hs.holes i hi).trans ⟨fun h c hc hr hmod => ?_, fun h c hc => h c (by omega)⟩
      rcases Nat.lt_succ_iff_lt_or_eq.mp hc with hc | rfl
      · exact h c hc hr hmod
      · exact absurd hmod hia

theorem Stage.skip_fill (hs : L.Stage k a n s) (hf : ¬ L.Fresh a) : L.Stage k (a + 1) n s := by
  refine ⟨hs.total, by rw [fills_succ_of_not_fresh hf, hs.count], hs.size, ?_, hs.cntPge⟩
  intro i hi
  refine (hs.holes i hi).trans ⟨fun h c hc hr hmod => ?_, fun h c hc => h c (by omega)⟩
  rcases Nat.lt_succ_iff_lt_or_eq.mp hc with hc | rfl
  · exact h c hc hr hmod
  · by_contra hne
    subst hmod
    exact hf ⟨hr, h⟩

-- ---------------------------------------------------------------------------
-- One pass
-- ---------------------------------------------------------------------------

theorem pred_mod_succ (ha : 0 < a) (hT : 0 < T) :
    (T ∣ a ∧ (a - 1) % T + 1 = T ∧ a % T = 0) ∨
      (¬ T ∣ a ∧ (a - 1) % T + 1 < T ∧ a % T = (a - 1) % T + 1) := by
  obtain ⟨a, rfl⟩ : ∃ c, a = c + 1 := ⟨a - 1, by omega⟩
  rw [Nat.add_sub_cancel, Nat.dvd_iff_mod_eq_zero]
  have hlt := Nat.mod_lt a hT
  by_cases h : a % T + 1 = T
  · have h0 : (a + 1) % T = 0 := by rw [Nat.add_mod, Nat.add_mod_mod, h, Nat.mod_self]
    exact .inl ⟨h0, h, h0⟩
  · have h1 : (a + 1) % T = a % T + 1 := by
      rw [← Nat.mod_add_mod, Nat.mod_eq_of_lt (by omega)]
    exact .inr ⟨by omega, by omega, h1⟩

theorem Stage.checkPoint_iff (hs : L.Stage (a + 1) n a s) :
    s.totalNumOfChunk ≤ s.cntPge ∧ s.totalNumOfChunk ≠ 0 ↔ L.CheckPoint a := by
  have hT := L.total_pos
  rw [hs.total, hs.cntPge, CheckPoint]
  by_cases hk : L.Known a
  · have hk' := known_succ.mpr (.inl hk)
    have ha : 0 < a := by
      obtain ⟨c, hc, -⟩ := hk
      omega
    simp only [hk, hk', if_true, true_and, not_true_eq_false, false_and, or_false]
    rcases pred_mod_succ ha hT with ⟨hd, he, -⟩ | ⟨hd, he, -⟩
    · simp [hd, he]; omega
    · simp [hd]; omega
  · by_cases hg : L.GivesTotal a
    · have hk' := known_succ.mpr (.inr hg)
      simp only [hk, hk', hg, if_true, if_false, true_and, not_false_eq_true, false_and, false_or]
      omega
    · have hk' : ¬ L.Known (a + 1) := by simp [known_succ, hk, hg]
      simp [hk, hk', hg]

theorem Stage.cntPge_next (hs : L.Stage (a + 1) n a s) :
    (if L.CheckPoint a then s.cntPge % s.totalNumOfChunk else s.cntPge) + 1 =
      if L.Known (a + 1) then (a + 1 - 1) % L.total + 1 else a + 1 := by
  have hT := L.total_pos
  rw [hs.total, hs.cntPge, Nat.add_sub_cancel]
  by_cases hk : L.Known a
  · have hk' := known_succ.mpr (.inl hk)
    have ha : 0 < a := by
      obtain ⟨c, hc, -⟩ := hk
      omega
    rcases pred_mod_succ ha hT with ⟨hd, he, hm⟩ | ⟨hd, he, hm⟩
    · simp [CheckPoint, hk, hk', hd, he, hm]
    · simp [CheckPoint, hk, hk', hd, hm]
  · by_cases hg : L.GivesTotal a
    · have hk' := known_succ.mpr (.inr hg)
      by_cases ha : L.total ≤ a
      · simp [CheckPoint, hk, hk', hg, ha]
      · simp [CheckPoint, hk, hk', hg, ha, Nat.mod_eq_of_lt (by omega : a < L.total)]
    · have hk' : ¬ L.Known (a + 1) := by simp [known_succ, hk, hg]
      simp [CheckPoint, hk, hk', hg]

theorem Stage.foot (hs : L.Stage (a + 1) (a + 1) a s) (hp : L.pages[a]? = some p) :
    (L.CheckPoint a ∧ L.LastCopy a ∧ ∃ s', mapFoot s p.oob = .ret (-2, s')) ∨
      (¬ (L.CheckPoint a ∧ L.LastCopy a) ∧
        ∃ s', mapFoot s p.oob = .next s' ∧ L.Stage (a + 1) (a + 1) (a + 1) s') := by
  have hnext := hs.cntPge_next
  unfold mapFoot
  by_cases hc : L.CheckPoint a
  · rw [if_pos (hs.checkPoint_iff.mpr hc)]
    rw [if_pos hc] at hnext
    by_cases hl : p.oob.idxCopy.toNat + 1 = p.oob.numCopy.toNat
    · exact .inl ⟨hc, (lastCopy_iff hp).mpr hl, _, if_pos hl⟩
    · refine .inr ⟨fun h => hl ((lastCopy_iff hp).mp h.2), _, if_neg hl, ?_⟩
      exact ⟨hs.total, hs.count, hs.size, hs.holes, hnext⟩
  · rw [if_neg (mt hs.checkPoint_iff.mp hc)]
    rw [if_neg hc] at hnext
    exact .inr ⟨fun h => hc h.1, _, rfl, hs.total, hs.count, hs.size, hs.holes, hnext⟩

theorem Stage.chunk (hs : L.Stage (a + 1) a a s) (hr : L.Readable a) (o : PlrOob) :
    (L.Done a ∧ ∃ s', mapChunk s (a % L.total) a o = .ret (0, s')) ∨
      (¬ L.Done a ∧ ∃ t, mapChunk s (a % L.total) a o = mapFoot t o ∧
        L.Stage (a + 1) (a + 1) a t) := by
  have hlt : a % L.total < s.plrVmpageTable.length := by
    rw [hs.size]
    exact L.mod_lt_size a
  have hhole := hs.hole_iff
  unfold mapChunk
  rw [List.getElem?_eq_getElem hlt]
  rw [MapState.Hole, List.getElem?_eq_getElem hlt, Option.some.injEq] at hhole
  dsimp only
  by_cases hm : L.Missing a
  · rw [if_pos (hhole.mpr hm)]
    have hf := hs.fill ⟨hr, hm⟩
    rw [hf.count, hf.total]
    by_cases hd : L.Done a
    · rw [if_pos (by rw [if_pos hd.2.1, hd.2.2])]
      exact .inl ⟨hd, _, rfl⟩
    · rw [if_neg]
      · exact .inr ⟨hd, _, rfl, hf⟩
      · intro he
        split at he
        next hk => exact hd ⟨⟨hr, hm⟩, hk, he⟩
        next =>
          rw [fills_succ_of_fresh ⟨hr, hm⟩] at he
          omega
  · rw [if_neg fun h => hm (hhole.mp h)]
    exact .inr ⟨fun hd => hm hd.1.2, s, rfl, hs.skip_fill fun hf => hm hf.2⟩

theorem mapPass_stage (hs : L.Stage a a a s) (hp : L.pages[a]? = some p) :
    (L.Done a ∧ ∃ s', mapPass s (p, a) = .ret (0, s')) ∨
      (¬ L.Done a ∧ ∃ t, mapPass s (p, a) = mapFoot t p.oob ∧ L.Stage (a + 1) (a + 1) a t) := by
  unfold mapPass
  dsimp only
  cases L.holds a p hp with
  | ordinary ha hchunk _ _ _ =>
    have hr : L.Readable a := ⟨p, hp, by simp [PlrPageRead.slot?, ha.1, ha.2]⟩
    rw [if_neg ha.1, if_pos ha.2.1, if_neg (by simpa using ha.2.2), hchunk]
    exact (hs.announce hp ha).chunk hr p.oob
  | firstLoad hfl hidx =>
    have hr : L.Readable a := ⟨p, hp, by simp [PlrPageRead.slot?, hfl]⟩
    have hg : ¬ L.GivesTotal a := fun h => ((givesTotal_iff hp).mp h).1 hfl
    rw [if_pos hfl, hidx]
    exact (hs.skip_announce hg).chunk hr p.oob
  | unreadable hfl hu =>
    have hr : ¬ L.Readable a := by simp [readable_iff hp, PlrPageRead.slot?, hfl, hu]
    have hg : ¬ L.GivesTotal a := by simp [givesTotal_iff hp, PlrPageRead.Announces, hu]
    rw [if_neg hfl, if_neg (by simp [hu])]
    exact .inr ⟨fun hd => hr hd.1.1, s, rfl, (hs.skip_announce hg).skip_fill fun hf => hr hf.1⟩

-- ---------------------------------------------------------------------------
-- The whole scan
-- ---------------------------------------------------------------------------

theorem not_ret_zero_of_count_ge (h0 : s.totalNumOfChunk ≠ 0)
    (hc : s.totalNumOfChunk ≤ s.cntValidChunk) : Scan.run mapPass s xs ≠ .ret (0, s') := by
  intro h
  have hq := Scan.run_ret_ind (Q := fun s r => s.totalNumOfChunk ≠ 0 →
    s.totalNumOfChunk ≤ s.cntValidChunk → r.1 ≠ 0) ?_ ?_ h h0 hc
  · exact hq rfl
  · intro s x t r hx hq h0 hc
    obtain ⟨hstep, hn⟩ := mapPass_next hx
    rw [if_neg (fun h => h0 h.2)] at hn
    apply hq <;> rw [hn]
    · exact h0
    · cases hstep <;> omega
  · rintro s x ⟨v, t⟩ hx h0 hc rfl
    have hn : t.totalNumOfChunk = _ := (mapPass_ret hx).total
    rw [if_neg (fun h => h0 h.2)] at hn
    have := mapPass_ret_zero hx
    omega

theorem total_le_fills (h : L.Recoverable) : L.total ≤ L.fills (L.numCopy * L.total) := by
  have hsub : Finset.range L.total ⊆
      {a ∈ Finset.range (L.numCopy * L.total) | L.Fresh a}.image (· % L.total) := by
    intro i hi
    have hex := h.1 i (Finset.mem_range.mp hi)
    -- the first page that has the chunk fills the slot
    obtain ⟨hr, hmod⟩ := Nat.find_spec hex
    have hlt : Nat.find hex < L.numCopy * L.total := by
      obtain ⟨p, hp, -⟩ := hr
      rw [← L.length]
      exact (List.getElem?_eq_some_iff.mp hp).1
    refine Finset.mem_image.mpr ⟨Nat.find hex, ?_, hmod⟩
    refine Finset.mem_filter.mpr ⟨Finset.mem_range.mpr hlt, hr, ?_⟩
    intro c hc hcr hcm
    exact absurd ⟨hcr, hcm.trans hmod⟩ (Nat.find_min hex hc)
  calc L.total = (Finset.range L.total).card := (Finset.card_range _).symm
    _ ≤ _ := Finset.card_le_card hsub
    _ ≤ L.fills (L.numCopy * L.total) := Finset.card_image_le

theorem known_of_recoverable (h : L.Recoverable) : L.Known (L.numCopy * L.total) := by
  obtain ⟨a, p, hp, ha⟩ := h.2
  refine ⟨a, ?_, p, hp, ha⟩
  rw [← L.length]
  exact (List.getElem?_eq_some_iff.mp hp).1

theorem flash_drop (h : a < L.pages.length) :
    L.flash.drop a = L.pages[a] :: L.flash.drop (a + 1) := by
  rw [List.drop_eq_getElem_cons (by simp [flash]; omega)]
  simp only [flash, List.getElem_append_left h]

theorem exists_before_succ {P Q : Nat → Prop} {N : Nat} (hP : ¬P a) (hQ : ¬Q a) :
    (∃ d, a + 1 ≤ d ∧ d < N ∧ P d ∧ ∀ c, a + 1 ≤ c → c < d → ¬Q c) ↔
      ∃ d, a ≤ d ∧ d < N ∧ P d ∧ ∀ c, a ≤ c → c < d → ¬Q c := by
  constructor
  · rintro ⟨d, hd, hN, hPd, hno⟩
    refine ⟨d, by omega, hN, hPd, fun c hc hcd => ?_⟩
    rcases hc.eq_or_lt with rfl | hc
    · exact hQ
    · exact hno c hc hcd
  · rintro ⟨d, hd, hN, hPd, hno⟩
    have hne : a ≠ d := by
      rintro rfl
      exact hP hPd
    exact ⟨d, by omega, hN, hPd, fun c hc => hno c (by omega)⟩

theorem run_ret_zero_iff (h : L.Recoverable) (n : Nat) (ha : a + n = L.numCopy * L.total)
    (hs : L.Stage a a a s) :
    (∃ s', Scan.run mapPass s ((L.flash.drop a).zipIdx a) = .ret (0, s')) ↔
      ∃ d, a ≤ d ∧ d < L.numCopy * L.total ∧ L.Done d ∧
        ∀ c, a ≤ c → c < d → ¬ (L.CheckPoint c ∧ L.LastCopy c) := by
  induction n generalizing a s with
  | zero =>
    obtain rfl : a = L.numCopy * L.total := ha
    refine iff_of_false ?_ ?_
    · rintro ⟨s', hrun⟩
      have htotal := hs.total
      rw [if_pos (known_of_recoverable h)] at htotal
      refine not_ret_zero_of_count_ge ?_ ?_ hrun
      · rw [htotal]
        exact L.total_pos.ne'
      · rw [htotal, hs.count]
        exact total_le_fills h
    · rintro ⟨d, hd, hd', -⟩
      omega
  | succ n ih =>
    have hlt : a < L.pages.length := by
      rw [L.length]
      omega
    have hp : L.pages[a]? = some L.pages[a] := List.getElem?_eq_getElem hlt
    rw [flash_drop hlt, List.zipIdx_cons]
    rcases mapPass_stage hs hp with ⟨hd, s', hx⟩ | ⟨hd, t, hx, ht⟩
    · rw [Scan.run_cons_ret hx]
      refine iff_of_true ⟨s', rfl⟩ ⟨a, le_rfl, by omega, hd, ?_⟩
      intro c hc hc'
      omega
    · rcases ht.foot hp with ⟨hc, hl, s', hfoot⟩ | ⟨hq, s', hfoot, hs'⟩
      · rw [Scan.run_cons_ret (hx.trans hfoot)]
        refine iff_of_false (by simp) ?_
        rintro ⟨d, hd₁, -, hdone, hno⟩
        have hne : a ≠ d := by
          rintro rfl
          exact hd hdone
        exact hno a le_rfl (by omega) ⟨hc, hl⟩
      · rw [Scan.run_cons_next (hx.trans hfoot), ih (by omega) hs']
        exact exists_before_succ hd hq

variable (L) in
/-- The scan succeeds exactly if the page that completes the count comes no later
than the first page whose record makes it give up. -/
theorem complete_iff : L.Complete ↔
    (L.Recoverable → ∃ d < L.numCopy * L.total, L.Done d ∧
      ∀ c < d, ¬ (L.CheckPoint c ∧ L.LastCopy c)) := by
  refine forall_congr' fun h => ?_
  have hrun := run_ret_zero_iff h (L.numCopy * L.total) (Nat.zero_add _) L.stage_init
  simpa [nsuInit_eq_zero] using hrun

end PlrLayout

def failedPage (idxCopy idxChunk : UInt16) (totalChunk numCopy : UInt32) : PlrPageRead where
  sts := 0xECDEAD01#32
  oob := ⟨signaturePlr, idxCopy, idxChunk, totalChunk, numCopy⟩
  data := fun _ => 0
  fl := ⟨⟨true, false, 0⟩, ⟨true, false, 0⟩, 0, 0⟩

def twoCopies : PlrLayout board9603cvd where
  total := 2
  numCopy := 2
  pages := [(plainPage 0 0 2 2).read, failedPage 0 1 2 2, (plainPage 1 0 2 2).read,
    (plainPage 1 1 2 2).read]
  rest := []
  total_pos := by decide
  numCopy_pos := by decide
  fits := by decide
  length := rfl
  holds := by
    intro a p hp
    have ha : a < 4 := (List.getElem?_eq_some_iff.mp hp).1
    interval_cases a <;> cases hp
    · exact .ordinary (by decide) rfl rfl rfl rfl
    · exact .unreadable (by decide) (by decide)
    · exact .ordinary (by decide) rfl rfl rfl rfl
    · exact .ordinary (by decide) rfl rfl rfl rfl

/-- The scan gives up on the first page of the second copy, one page short. -/
theorem twoCopies_gives_up : ¬ twoCopies.Complete := by
  intro h
  have hread : ∀ i < 2, ∃ a, twoCopies.Readable a ∧ a % 2 = i := by
    intro i hi
    interval_cases i
    · exact ⟨0, by decide, rfl⟩
    · exact ⟨3, by decide, rfl⟩
  obtain ⟨s, hs⟩ := h ⟨hread, 0, by decide⟩
  have hret : nsuInit board9603cvd twoCopies.flash =
      .ret (-2, ⟨2, 0, 1, 0 :: List.replicate 67 0xFFFF⟩) := by decide
  rw [hret] at hs
  cases hs

end BismarckPreloader.Nand
