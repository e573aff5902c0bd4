import Mathlib.Data.Fintype.Basic
import Mathlib.Data.Fin.Basic
import BismarckPreloader.Mmu.Driver

/-!
# The TLB and the frame table

A direct-mapped TLB has one entry for each pair of pages of the virtual area: page
`n` belongs to half `n % 2` of entry `n / 2`, which is `State.half s n`. `Consistent`
says that the valid half-entries, the frame table and the frames agree.

The handler numbers pages by `TLB_NUM_TLB_MASK`, which has as many values as the TLB
has entries, half as many as it has half-entries. `Inv` is kept by every miss in terms
of the handler's numbers; `demandPaging_iff` says when these are the pages.
-/

namespace BismarckPreloader.Mmu

def TlbEntry.half (e : TlbEntry) (i : Nat) : EntryLo := if i ≠ 0 then e.lo1 else e.lo0

def State.half (s : State) (n : Nat) : EntryLo := (s.getEntry (n / 2)).half (n % 2)

/-- A boot up to the first miss: the platform's TLB has an entry for each pair of
pages, `mmu_drv_init` has accepted a frame, and pages can be read. The variables
`_lowest_level` and `_current_asid` start at 0, all else is arbitrary. -/
structure Boot where
  platform : Platform
  onePerPair : platform.numVaPages ≤ 2 * platform.numTlbEntry
  phyStart : Nat
  phyEnd : Nat
  links : Links Node
  page : Frame → PageSt
  tlb : Nat → TlbEntry
  ram : Mem
  accepts : 0 < (mmuDrvInit platform phyStart phyEnd ⟨links, page, 0, 0, tlb, ram⟩).2
  flash : Nat → Nat → UInt8
  read : Nat → Option (Nat → UInt8)
  reads : ∀ n < platform.numVaPages, read n = some (flash n)

def Miss.page (m : Miss) : Nat := (m.badvaddr - mmuVmBaseAddr) / tlbPageSize

namespace Boot

def start (B : Boot) : State :=
  (mmuDrvInit B.platform B.phyStart B.phyEnd ⟨B.links, B.page, 0, 0, B.tlb, B.ram⟩).1

def isr (B : Boot) (s : State) (m : Miss) : Except Stuck State :=
  plrTlbMissIsr B.platform B.read s m

/-- A miss of the virtual area that can happen in a state: an invalid-entry miss is
one of a half-entry that is not valid. -/
structure Occurs (B : Boot) (s : State) (m : Miss) : Prop where
  above : mmuVmBaseAddr ≤ m.badvaddr
  below : m.badvaddr < mmuVmBaseAddr + B.platform.mmuVmSize
  invalid : m.kind = .invalid → (s.half m.page).v = false

inductive Reached (B : Boot) : State → Prop
  | start : B.Reached B.start
  | miss (hs : B.Reached s) (hm : B.Occurs s m) (h : B.isr s m = .ok s') : B.Reached s'

/-- The frame a valid half-entry points to is recorded for it and holds its page, and
no two of them share a frame. -/
structure Consistent (B : Boot) (s : State) : Prop where
  recorded : ∀ n < 2 * B.platform.numTlbEntry, (s.half n).v →
    (s.half n).pfn = paToPfn (s.page (ppageNum (s.half n).pfn)).pa ∧
      (s.page (ppageNum (s.half n).pfn)).vpageNum = n ∧
      (s.page (ppageNum (s.half n).pfn)).entLoIdx = n % 2
  distinct : ∀ n < 2 * B.platform.numTlbEntry, ∀ n' < 2 * B.platform.numTlbEntry,
    (s.half n).v → (s.half n').v → ppageNum (s.half n).pfn = ppageNum (s.half n').pfn → n = n'
  contents : ∀ n < 2 * B.platform.numTlbEntry, (s.half n).v → ∀ k < tlbPageSize,
    s.ram (vicVa (s.page (ppageNum (s.half n).pfn)).pa + k) = B.flash n k

/-- Every miss that can happen after any sequence of misses is handled, and leaves the
missed half-entry valid and the whole consistent. -/
def DemandPaging (B : Boot) : Prop :=
  ∀ s m, B.Reached s → B.Occurs s m →
    ∃ s', B.isr s m = .ok s' ∧ (s'.half m.page).v ∧ B.Consistent s'

end Boot

@[simp] theorem ppageNum_paToPfn (f : Frame) : ppageNum (paToPfn (paByPage f)) = f := by
  revert f
  decide

theorem paToPfn_ne_zero (f : Frame) : paToPfn (paByPage f) ≠ 0 := by
  revert f
  decide

theorem vicVa_paByPage (f : Frame) :
    vicVa (paByPage f) = ottoSramStart + tlbPageSize * f := by
  revert f
  decide

theorem Platform.numTlbEntry_dvd (P : Platform) : P.numTlbEntry ∣ 0xC0000 := by
  have h : P.numTlbEntry ∣ 2 ^ 6 := Nat.pow_dvd_pow 2 P.bits_le
  exact Nat.dvd_trans h (by decide)

theorem Platform.numTlbEntry_le (P : Platform) : P.numTlbEntry ≤ 64 :=
  Nat.pow_le_pow_right Nat.two_pos P.bits_le

theorem Platform.two_dvd_numTlbEntry (P : Platform) : 2 ∣ P.numTlbEntry :=
  Nat.pow_dvd_pow 2 P.bits_pos

theorem Platform.numTlbEntry_pos (P : Platform) : 0 < P.numTlbEntry := Nat.two_pow_pos _

theorem Miss.vpageNum_eq (P : Platform) (m : Miss) (h : mmuVmBaseAddr ≤ m.badvaddr) :
    m.vpageNum P = m.page % P.numTlbEntry := by
  obtain ⟨d, hd⟩ := Nat.exists_eq_add_of_le h
  have hshift : m.badvaddr >>> tlbPageShift = 0xC0000 + d / 4096 := by
    rw [hd, Nat.shiftRight_eq_div_pow]
    simp only [mmuVmBaseAddr, ottoKseg2Base, tlbPageShift]
    omega
  have hpage : m.page = d / 4096 := by
    rw [Miss.page, hd, Nat.add_sub_cancel_left]
    rfl
  rw [Miss.vpageNum, Platform.numTlbMask, Platform.numTlbEntry, Nat.and_two_pow_sub_one_eq_mod,
    hshift, hpage, ← Platform.numTlbEntry]
  obtain ⟨c, hc⟩ := P.numTlbEntry_dvd
  rw [hc, Nat.mul_add_mod]

theorem Miss.entryloIdx_eq (P : Platform) (m : Miss) :
    entryloIdx m.badvaddr = m.vpageNum P % 2 := by
  rw [Miss.vpageNum, Platform.numTlbMask, Platform.numTlbEntry, Nat.and_two_pow_sub_one_eq_mod,
    ← Platform.numTlbEntry, Nat.mod_mod_of_dvd _ P.two_dvd_numTlbEntry, entryloIdx,
    Nat.and_one_is_mod]

theorem Boot.Occurs.page_lt {B : Boot} {m : Miss} (h : B.Occurs s m) :
    m.page < B.platform.numVaPages := by
  have habove := h.above
  have hbelow := h.below
  have hsize : tlbPageSize = 4096 := rfl
  rw [Miss.page, Platform.numVaPages, hsize]
  omega

section Halves

variable {s : State} {n k v : Nat} {e : TlbEntry}

theorem shiftRight_one (n : Nat) : n >>> 1 = n / 2 := rfl

theorem State.half_setEntry (hn : n < 128) (hk : k < 64) :
    (s.setEntry k e).half n = if n / 2 = k then e.half (n % 2) else s.half n := by
  have hn' : n / 2 % 64 = n / 2 := Nat.mod_eq_of_lt (by omega)
  have hk' : k % 64 = k := Nat.mod_eq_of_lt hk
  by_cases h : n / 2 = k
  · simp [State.half, State.getEntry, State.setEntry, h]
  · simp [State.half, State.getEntry, State.setEntry, hn', hk', h]

theorem State.half_invalidTlbEntry (hn : n < 128) (hv : v < 128) :
    (s.invalidTlbEntry v (v % 2)).half n =
      if n = v then { s.half n with v := false } else s.half n := by
  have hk : v / 2 < 64 := by omega
  rw [State.invalidTlbEntry, shiftRight_one]
  by_cases hodd : v % 2 ≠ 0
  · rw [if_pos hodd, State.half_setEntry hn hk]
    grind [State.half, TlbEntry.half]
  · rw [if_neg hodd, State.half_setEntry hn hk]
    grind [State.half, TlbEntry.half]

end Halves

-- ---------------------------------------------------------------------------
-- The level lists
-- ---------------------------------------------------------------------------

def Boot.Accepts (B : Boot) (f : Frame) : Prop := B.phyStart ≤ paByPage f ∧ paByPage f < B.phyEnd

def Queued (frames : Frame → Prop) (k : Links Node) : Prop :=
  ∃ member : Level → List Node, k.Rings .level member ∧
    ∀ x, (∃ l, x ∈ member l) ↔ ∃ f, x = .page f ∧ frames f

section Lists

variable {frames : Frame → Prop} {k : Links Node} {f : Frame}

theorem Queued.next_ne_null (h : Queued frames k) (hf : frames f) : k.next (.page f) ≠ .null := by
  obtain ⟨member, hrings, hmem⟩ := h
  obtain ⟨l, hl⟩ := (hmem (.page f)).mpr ⟨f, rfl, hf⟩
  intro hnull
  have hnext := hrings.next_mem hl
  rw [hnull, List.mem_cons] at hnext
  rcases hnext with hn | hn
  · cases hn
  · obtain ⟨g, hg, -⟩ := (hmem .null).mp ⟨l, hn⟩
    cases hg

theorem Queued.moveTail (h : Queued frames k) (hf : frames f) (l : Level) :
    Queued frames (k.moveTail (.level l) (.page f)) := by
  obtain ⟨member, hrings, hmem⟩ := h
  obtain ⟨l₀, hl₀⟩ := (hmem (.page f)).mpr ⟨f, rfl, hf⟩
  exact ⟨_, hrings.moveTail hl₀ l, fun x => (Links.exists_mem_moveMember hl₀).trans (hmem x)⟩

theorem State.moveToList_ok {s : State} (h : Queued frames s.links) (hf : frames f) (l : Level) :
    ∃ k, s.moveToList l f = .ok { s with links := k } ∧ Queued frames k := by
  rw [State.moveToList, if_neg (h.next_ne_null hf)]
  exact ⟨_, rfl, h.moveTail hf l⟩

theorem State.promote_ok {s : State} (h : Queued frames s.links) (hf : frames f) :
    ∃ k, s.promote (paToPfn (paByPage f)) = .ok { s with links := k } ∧ Queued frames k := by
  rw [State.promote, ppageNum_paToPfn]
  split
  · exact State.moveToList_ok h hf _
  · exact ⟨s.links, rfl, h⟩

theorem findVictim_ok {member : Level → List Node} (hrings : k.Rings .level member)
    (hmem : ∀ x, (∃ l, x ∈ member l) → ∃ f, x = .page f ∧ frames f) (fuel : Nat) (l : Level)
    (h : ∃ n < fuel, member (l + Fin.ofNat numLevel n) ≠ []) :
    ∃ l' f, findVictim k fuel l = .ok (l', f) ∧ frames f := by
  induction fuel generalizing l with
  | zero =>
    obtain ⟨n, hn, -⟩ := h
    exact absurd hn (Nat.not_lt_zero n)
  | succ fuel ih =>
    have hnext := Links.Path.next_eq (hrings.ring l)
    cases hl : member l with
    | cons x xs =>
      obtain ⟨f, rfl, hf⟩ := hmem x ⟨l, hl ▸ List.mem_cons_self⟩
      rw [hl, List.headD_cons] at hnext
      refine ⟨l, f, ?_, hf⟩
      rw [findVictim, hnext]
    | nil =>
      rw [hl, List.headD_nil] at hnext
      rw [findVictim, hnext]
      simp only [if_true]
      obtain ⟨n, hn, hne⟩ := h
      cases n with
      | zero =>
        rw [Fin.ofNat_zero, Fin.add_zero, hl] at hne
        exact absurd rfl hne
      | succ n =>
        refine ih (promoLevel l) ⟨n, Nat.lt_of_succ_lt_succ hn, ?_⟩
        have hlevel : promoLevel l + Fin.ofNat numLevel n = l + Fin.ofNat numLevel (n + 1) := by
          apply Fin.ext
          simp only [promoLevel, Fin.val_add, Fin.val_ofNat, Nat.mod_add_mod, Nat.add_mod_mod]
          rw [Nat.add_assoc, Nat.add_comm 1]
        rwa [hlevel]

theorem level_add_sub : ∀ l l₀ : Level, l + Fin.ofNat numLevel (l₀ - l).val = l₀ := by decide

theorem Queued.findVictim_ok (h : Queued frames k) (hf : frames f) (l : Level) :
    ∃ l' f', findVictim k numLevel l = .ok (l', f') ∧ frames f' := by
  obtain ⟨member, hrings, hmem⟩ := h
  obtain ⟨l₀, hl₀⟩ := (hmem (.page f)).mpr ⟨f, rfl, hf⟩
  refine Mmu.findVictim_ok hrings (fun x => (hmem x).mp) numLevel l ⟨(l₀ - l).val, (l₀ - l).isLt, ?_⟩
  rw [level_add_sub]
  exact List.ne_nil_of_mem hl₀

end Lists

structure MappedTo (B : Boot) (s : State) (n : Nat) (f : Frame) : Prop where
  accepted : B.Accepts f
  pfn : (s.half n).pfn = paToPfn (paByPage f)
  vpageNum : (s.page f).vpageNum = n
  entLoIdx : (s.page f).entLoIdx = n % 2
  contents : ∀ k < tlbPageSize, s.ram (vicVa (paByPage f) + k) = B.flash n k

/-- What every miss keeps. A half-entry that is not valid may still name a frame. -/
structure Inv (B : Boot) (s : State) : Prop where
  queued : Queued B.Accepts s.links
  pa : ∀ f, B.Accepts f → (s.page f).pa = paByPage f
  record : ∀ f, B.Accepts f → (s.page f).vpageNum = psvaFree ∨
    (s.page f).vpageNum < B.platform.numTlbEntry ∧ (s.page f).vpageNum < B.platform.numVaPages ∧
      (s.page f).entLoIdx = (s.page f).vpageNum % 2
  stale : ∀ n < 2 * B.platform.numTlbEntry, (s.half n).pfn ≠ 0 →
    ∃ f, B.Accepts f ∧ (s.half n).pfn = paToPfn (paByPage f)
  mapped : ∀ n < 2 * B.platform.numTlbEntry, (s.half n).v → ∃ f, MappedTo B s n f

theorem Inv.consistent {B : Boot} {s : State} (h : Inv B s) : B.Consistent s := by
  have hframe : ∀ n < 2 * B.platform.numTlbEntry, (s.half n).v →
      MappedTo B s n (ppageNum (s.half n).pfn) := by
    intro n hn hv
    obtain ⟨f, hf⟩ := h.mapped n hn hv
    rwa [hf.pfn, ppageNum_paToPfn]
  refine ⟨fun n hn hv => ?_, fun n hn n' hn' hv hv' he => ?_, fun n hn hv k hk => ?_⟩
  · have hf := hframe n hn hv
    exact ⟨hf.pfn.trans (by rw [h.pa _ hf.accepted]), hf.vpageNum, hf.entLoIdx⟩
  · rw [← (hframe n hn hv).vpageNum, he, (hframe n' hn' hv').vpageNum]
  · have hf := hframe n hn hv
    rw [h.pa _ hf.accepted]
    exact hf.contents k hk

theorem Inv.congr {B : Boot} {s s' : State} (h : Inv B s) (hq : Queued B.Accepts s'.links)
    (hpage : s'.page = s.page) (hram : s'.ram = s.ram)
    (hhalf : ∀ n < 2 * B.platform.numTlbEntry, s'.half n = s.half n) : Inv B s' := by
  refine ⟨hq, hpage ▸ h.pa, hpage ▸ h.record, fun n hn hpfn => ?_, fun n hn hv => ?_⟩
  · rw [hhalf n hn] at hpfn ⊢
    exact h.stale n hn hpfn
  · rw [hhalf n hn] at hv
    obtain ⟨f, hf⟩ := h.mapped n hn hv
    refine ⟨f, hf.accepted, ?_, ?_, ?_, ?_⟩
    · rw [hhalf n hn, hf.pfn]
    · rw [hpage, hf.vpageNum]
    · rw [hpage, hf.entLoIdx]
    · rw [hram]
      exact hf.contents

-- ---------------------------------------------------------------------------
-- Initialisation
-- ---------------------------------------------------------------------------

theorem clearEntry_tlb (s : State) (N : Nat) (hN : N ≤ 64) (hi : i < N) :
    (((List.range N).foldl clearEntry s).tlb i).lo0 = ⟨0, false⟩ ∧
      (((List.range N).foldl clearEntry s).tlb i).lo1 = ⟨0, false⟩ := by
  induction N with
  | zero => exact absurd hi (Nat.not_lt_zero i)
  | succ N ih =>
    have hmod : N % 64 = N := Nat.mod_eq_of_lt (by omega)
    rw [List.range_succ, List.foldl_append, List.foldl_cons, List.foldl_nil, clearEntry,
      State.setEntry, hmod]
    by_cases hiN : i = N
    · subst hiN
      simp only [Function.update_self, and_self]
    · simp only [Function.update_of_ne hiN]
      exact ih (by omega) (by omega)

theorem half_clearEntry (s : State) (N : Nat) (hN : N ≤ 64) (hn : n < 2 * N) :
    ((List.range N).foldl clearEntry s).half n = ⟨0, false⟩ := by
  have hmod : n / 2 % 64 = n / 2 := Nat.mod_eq_of_lt (by omega)
  obtain ⟨h0, h1⟩ := clearEntry_tlb s N hN (i := n / 2) (by omega)
  rw [State.half, State.getEntry, hmod, TlbEntry.half]
  split
  · exact h1
  · exact h0

structure InitInv (B : Boot) (tlb : Nat → TlbEntry) (done : List Frame) (x : State × Nat) :
    Prop where
  queued : Queued (fun f => f ∈ done ∧ B.Accepts f) x.1.links
  page : ∀ f ∈ done, B.Accepts f → x.1.page f = ⟨paByPage f, psvaFree, 0, 0⟩
  count : 0 < x.2 → ∃ f, B.Accepts f
  tlb : x.1.tlb = tlb

theorem Queued.insertTail {frames : Frame → Prop} {k : Links Node} (h : Queued frames k)
    (hf : ¬frames f) (l : Level) :
    Queued (fun g => frames g ∨ g = f) (k.insertTail (.level l) (.page f)) := by
  obtain ⟨member, hrings, hmem⟩ := h
  have hfresh : ∀ i, Node.page f ∉ member i := by
    intro i hi
    obtain ⟨g, hg, hg'⟩ := (hmem _).mp ⟨i, hi⟩
    cases hg
    exact hf hg'
  refine ⟨_, hrings.insertTail (fun i => ?_) l, fun x => ?_⟩
  · simp [hfresh i]
  · constructor
    · rintro ⟨i, hi⟩
      by_cases hil : i = l
      · subst hil
        rw [Function.update_self, List.mem_append, List.mem_singleton] at hi
        rcases hi with hi | rfl
        · obtain ⟨g, hg, hg'⟩ := (hmem x).mp ⟨i, hi⟩
          exact ⟨g, hg, .inl hg'⟩
        · exact ⟨f, rfl, .inr rfl⟩
      · rw [Function.update_of_ne hil] at hi
        obtain ⟨g, hg, hg'⟩ := (hmem x).mp ⟨i, hi⟩
        exact ⟨g, hg, .inl hg'⟩
    · rintro ⟨g, rfl, hg | rfl⟩
      · obtain ⟨i, hi⟩ := (hmem _).mpr ⟨g, rfl, hg⟩
        refine ⟨i, ?_⟩
        by_cases hil : i = l
        · subst hil
          rw [Function.update_self]
          exact List.mem_append_left _ hi
        · rwa [Function.update_of_ne hil]
      · refine ⟨l, ?_⟩
        rw [Function.update_self]
        exact List.mem_append_right _ List.mem_cons_self

theorem Queued.congr {frames frames' : Frame → Prop} (h : Queued frames k)
    (hiff : ∀ f, frames f ↔ frames' f) : Queued frames' k := by
  obtain rfl : frames = frames' := funext fun f => propext (hiff f)
  exact h

theorem InitInv.initPage {B : Boot} (h : InitInv B t done x) (hf : f ∉ done) :
    InitInv B t (done ++ [f]) (initPage B.phyStart B.phyEnd x f) := by
  have hpage : ∀ st, ∀ g ∈ done, Function.update x.1.page f st g = x.1.page g := by
    intro st g hg
    have hne : g ≠ f := fun he => hf (he ▸ hg)
    exact Function.update_of_ne hne _ _
  by_cases ha : B.Accepts f
  · rw [Mmu.initPage]
    simp only [Boot.Accepts] at ha
    rw [if_pos ha]
    refine ⟨?_, fun g hg hacc => ?_, fun _ => ⟨f, ha⟩, h.tlb⟩
    · refine (h.queued.insertTail (fun hd => hf hd.1) 0).congr (fun g => ?_)
      rw [List.mem_append, List.mem_singleton]
      constructor
      · rintro (⟨hg, hacc⟩ | rfl)
        · exact ⟨.inl hg, hacc⟩
        · exact ⟨.inr rfl, ha⟩
      · rintro ⟨hg | rfl, hacc⟩
        · exact .inl ⟨hg, hacc⟩
        · exact .inr rfl
    · rcases List.mem_append.mp hg with hg | hg
      · exact (hpage _ g hg).trans (h.page g hg hacc)
      · obtain rfl := List.mem_singleton.mp hg
        exact Function.update_self _ _ _
  · rw [Mmu.initPage]
    simp only [Boot.Accepts] at ha
    rw [if_neg ha]
    refine ⟨h.queued.congr (fun g => ?_), fun g hg hacc => ?_, h.count, h.tlb⟩
    · rw [List.mem_append, List.mem_singleton]
      constructor
      · exact fun hg => ⟨.inl hg.1, hg.2⟩
      · rintro ⟨hg | rfl, hacc⟩
        · exact ⟨hg, hacc⟩
        · exact absurd hacc ha
    · rcases List.mem_append.mp hg with hg | hg
      · exact (hpage _ g hg).trans (h.page g hg hacc)
      · obtain rfl := List.mem_singleton.mp hg
        exact absurd hacc ha

theorem InitInv.foldl {B : Boot} (fs : List Frame) (h : InitInv B t done x)
    (hnodup : (done ++ fs).Nodup) :
    InitInv B t (done ++ fs) (fs.foldl (Mmu.initPage B.phyStart B.phyEnd) x) := by
  induction fs generalizing done x with
  | nil => rwa [List.append_nil]
  | cons f fs ih =>
    have hf : f ∉ done := by
      intro hd
      exact (List.nodup_append.mp hnodup).2.2 f hd f List.mem_cons_self rfl
    have hassoc : done ++ f :: fs = (done ++ [f]) ++ fs := by simp
    rw [hassoc] at hnodup ⊢
    exact ih (h.initPage hf) hnodup

theorem queued_clearPages (s : State) : Queued (fun _ => False) (clearPages s).links := by
  refine ⟨fun _ => [], ⟨fun l => ⟨rfl, rfl⟩, fun l => List.nodup_singleton _, ?_⟩, ?_⟩
  · intro i j hij x hx hx'
    rw [List.mem_singleton] at hx hx'
    exact hij (Node.level.inj (hx.symm.trans hx'))
  · simp

theorem Boot.initInv (B : Boot) : InitInv B
    ((List.range B.platform.numTlbEntry).foldl clearEntry ⟨B.links, B.page, 0, 0, B.tlb, B.ram⟩).tlb
    (List.finRange numPaPages)
    (mmuDrvInit B.platform B.phyStart B.phyEnd ⟨B.links, B.page, 0, 0, B.tlb, B.ram⟩) := by
  let s₀ : State :=
    (List.range B.platform.numTlbEntry).foldl clearEntry ⟨B.links, B.page, 0, 0, B.tlb, B.ram⟩
  have hclear : InitInv B s₀.tlb [] (clearPages s₀, 0) := by
    refine ⟨?_, ?_, ?_, rfl⟩
    · exact (queued_clearPages s₀).congr (fun f => by simp)
    · exact fun f hf => absurd hf List.not_mem_nil
    · exact fun h => absurd h (Nat.lt_irrefl 0)
  exact hclear.foldl (List.finRange numPaPages) (List.nodup_finRange numPaPages)

theorem Boot.exists_accepts (B : Boot) : ∃ f, B.Accepts f := B.initInv.count B.accepts

theorem Boot.half_start (B : Boot) (hn : n < 2 * B.platform.numTlbEntry) :
    B.start.half n = ⟨0, false⟩ := by
  rw [State.half, State.getEntry, Boot.start, B.initInv.tlb]
  exact half_clearEntry _ _ B.platform.numTlbEntry_le hn

theorem Boot.inv_start (B : Boot) : Inv B B.start := by
  have hinit := B.initInv
  have hpage : ∀ f, B.Accepts f → B.start.page f = ⟨paByPage f, psvaFree, 0, 0⟩ :=
    fun f => hinit.page f (List.mem_finRange f)
  refine ⟨?_, fun f hf => ?_, fun f hf => ?_, fun n hn hpfn => ?_, fun n hn hv => ?_⟩
  · exact hinit.queued.congr (fun f => and_iff_right (List.mem_finRange f))
  · rw [hpage f hf]
  · rw [hpage f hf]
    exact .inl rfl
  · rw [B.half_start hn] at hpfn
    exact absurd rfl hpfn
  · rw [B.half_start hn] at hv
    exact absurd hv Bool.false_ne_true

-- ---------------------------------------------------------------------------
-- Loading a page
-- ---------------------------------------------------------------------------

section Load

variable {B : Boot} {s s₁ : State} {vic : Frame} {v n : Nat} {inv : Bool}

theorem Boot.half_lt {B : Boot} (hn : n < 2 * B.platform.numTlbEntry) : n < 128 := by
  have := B.platform.numTlbEntry_le
  omega

theorem Inv.record_of_pfn (h : Inv B s) (hn : n < 2 * B.platform.numTlbEntry) (hv : (s.half n).v)
    (hpfn : (s.half n).pfn = paToPfn (paByPage vic)) : (s.page vic).vpageNum = n := by
  obtain ⟨f, hf⟩ := h.mapped n hn hv
  obtain rfl : f = vic := by
    rw [← ppageNum_paToPfn f, ← hf.pfn, hpfn, ppageNum_paToPfn]
  exact hf.vpageNum

structure Taken (B : Boot) (s s₁ : State) (vic : Frame) (v : Nat) (inv : Bool) : Prop where
  queued : Queued B.Accepts s₁.links
  page : s₁.page = Function.update s.page vic { s.page vic with vpageNum := v, entLoIdx := v % 2 }
  ram : s₁.ram = s.ram
  pfn : ∀ n < 2 * B.platform.numTlbEntry, (s₁.half n).pfn = (s.half n).pfn
  valid : ∀ n < 2 * B.platform.numTlbEntry, (s₁.half n).v →
    (s.half n).v ∧ (s.half n).pfn ≠ paToPfn (paByPage vic)
  same : inv = false → s₁.tlb = s.tlb

theorem State.invalidTlbEntry_frame (s : State) (w i : Nat) :
    (s.invalidTlbEntry w i).links = s.links ∧ (s.invalidTlbEntry w i).page = s.page ∧
      (s.invalidTlbEntry w i).ram = s.ram := by
  unfold State.invalidTlbEntry
  split
  · exact ⟨rfl, rfl, rfl⟩
  · exact ⟨rfl, rfl, rfl⟩

theorem Inv.takeVictim_free (h : Inv B s) (hvic : B.Accepts vic)
    (hfree : (s.page vic).vpageNum = psvaFree) (v : Nat) :
    ∃ s₁, s.takeVictim B.platform vic v (v % 2) = .ok (s₁, false) ∧
      Taken B s s₁ vic v false := by
  have hnot : psvaFree ≠ psvaNotVm := by decide
  obtain ⟨k, hk, hq⟩ := State.moveToList_ok (s := s.recordPage vic v (v % 2)) h.queued hvic
    (promoLevel2 s.lowestLevel)
  refine ⟨{ s.recordPage vic v (v % 2) with links := k }, ?_, hq, rfl, rfl,
    fun n _ => rfl, fun n hn hv => ⟨hv, fun hpfn => ?_⟩, fun _ => rfl⟩
  · simp only [State.takeVictim, hfree, hnot, ne_eq, not_true_eq_false, false_and, if_false,
      decide_false, Bool.false_eq_true]
    rw [State.recordPage] at hk ⊢
    rw [hk]
    rfl
  · -- a free frame is not recorded for any half-entry
    have hn' := B.half_lt hn
    have hrec := h.record_of_pfn hn hv hpfn
    rw [hfree, psvaFree] at hrec
    omega

theorem Inv.takeVictim_used (h : Inv B s) (hvic : B.Accepts vic)
    (hlt : (s.page vic).vpageNum < B.platform.numTlbEntry)
    (hva : (s.page vic).vpageNum < B.platform.numVaPages)
    (hidx : (s.page vic).entLoIdx = (s.page vic).vpageNum % 2) (v : Nat) :
    ∃ s₁, s.takeVictim B.platform vic v (v % 2) = .ok (s₁, true) ∧ Taken B s s₁ vic v true := by
  have hle := B.platform.numTlbEntry_le
  have hnot : (s.page vic).vpageNum ≠ psvaNotVm := by
    rw [psvaNotVm]
    omega
  have hused : (s.page vic).vpageNum ≠ psvaFree := by
    rw [psvaFree]
    omega
  let s₀ := s.invalidTlbEntry (s.page vic).vpageNum (s.page vic).entLoIdx
  obtain ⟨hlinks, hpage, hram⟩ :=
    s.invalidTlbEntry_frame (s.page vic).vpageNum (s.page vic).entLoIdx
  have hhalf : ∀ n < 2 * B.platform.numTlbEntry, s₀.half n =
      if n = (s.page vic).vpageNum then { s.half n with v := false } else s.half n := by
    intro n hn
    rw [← State.half_invalidTlbEntry (B.half_lt hn) (by omega), ← hidx]
  obtain ⟨k, hk, hq⟩ := State.moveToList_ok (s := s₀.recordPage vic v (v % 2))
    (hlinks.symm ▸ h.queued) hvic (promoLevel2 s₀.lowestLevel)
  refine ⟨{ s₀.recordPage vic v (v % 2) with links := k }, ?_, hq, ?_, hram,
    fun n hn => ?_, fun n hn hv => ?_, fun he => absurd he (by decide)⟩
  · simp only [State.takeVictim, hnot, hused, ne_eq, not_false_eq_true, true_and, if_false,
      decide_true, if_true, Nat.not_le.mpr hva]
    rw [State.recordPage] at hk ⊢
    rw [hk]
    rfl
  · simp only [State.recordPage, s₀, hpage]
  · change (s₀.half n).pfn = _
    rw [hhalf n hn]
    split
    · rfl
    · rfl
  · change (s₀.half n).v = _ at hv
    rw [hhalf n hn] at hv
    split at hv
    next => exact absurd hv (by simp)
    next hne => exact ⟨hv, fun hpfn => hne (h.record_of_pfn hn hv hpfn).symm⟩

theorem Inv.takeVictim_ok (h : Inv B s) (hvic : B.Accepts vic) (v : Nat) :
    ∃ s₁ inv, s.takeVictim B.platform vic v (v % 2) = .ok (s₁, inv) ∧ Taken B s s₁ vic v inv := by
  rcases h.record vic hvic with hfree | ⟨hlt, hva, hidx⟩
  · obtain ⟨s₁, htake, ht⟩ := h.takeVictim_free hvic hfree v
    exact ⟨s₁, false, htake, ht⟩
  · obtain ⟨s₁, htake, ht⟩ := h.takeVictim_used hvic hlt hva hidx v
    exact ⟨s₁, true, htake, ht⟩

theorem State.lo0_eq_half (s : State) (v : Nat) : (s.getEntry (v / 2)).lo0 = s.half (2 * (v / 2)) := by
  rw [State.half, Nat.mul_div_cancel_left _ Nat.two_pos, Nat.mul_mod_right, TlbEntry.half]
  simp

theorem State.lo1_eq_half (s : State) (v : Nat) :
    (s.getEntry (v / 2)).lo1 = s.half (2 * (v / 2) + 1) := by
  have hdiv : (2 * (v / 2) + 1) / 2 = v / 2 := by omega
  have hmod : (2 * (v / 2) + 1) % 2 = 1 := by omega
  rw [State.half, hdiv, hmod, TlbEntry.half]
  simp

theorem Inv.promoteBuddy_ok (h : Inv B s) (hq : Queued B.Accepts s₁.links)
    (hv : v < B.platform.numTlbEntry) :
    ∃ k, s₁.promoteBuddy (v % 2) (s.getEntry (v / 2)).lo0 (s.getEntry (v / 2)).lo1 =
        .ok { s₁ with links := k } ∧ Queued B.Accepts k := by
  -- the other half may be stale, but then it still names a frame of the driver
  obtain ⟨n, hn, hbud⟩ : ∃ n < 2 * B.platform.numTlbEntry, (if v % 2 ≠ 0 then
      (s.getEntry (v / 2)).lo0 else (s.getEntry (v / 2)).lo1) = s.half n := by
    split
    · exact ⟨2 * (v / 2), by omega, s.lo0_eq_half v⟩
    · exact ⟨2 * (v / 2) + 1, by omega, s.lo1_eq_half v⟩
  simp only [State.promoteBuddy, hbud]
  split
  next hpfn =>
    obtain ⟨f, hf, hpa⟩ := h.stale n hn hpfn
    rw [hpa]
    exact State.promote_ok hq hf
  next => exact ⟨s₁.links, rfl, hq⟩

theorem State.half_writeNewEntry (hn : n < 128) (hv : v < 128) (hidx : entryloIdx a = v % 2)
    {e : TlbEntry} (he : inv = false → e = s.getEntry (v / 2)) (pa : Nat) :
    (s.writeNewEntry (v / 2) a e.lo0 e.lo1 v pa inv).half n =
      if n = v then ⟨paToPfn pa, true⟩ else s.half n := by
  have hread : ∀ {α : Type} (g : TlbEntry → α),
      (if inv = true then g (s.getEntry (v / 2)) else g e) = g (s.getEntry (v / 2)) := by
    intro α g
    cases inv with
    | true => rfl
    | false => rw [he rfl, ite_self]
  have hk : v / 2 < 64 := by omega
  rw [State.writeNewEntry, shiftRight_one, hidx, hread, hread]
  by_cases hodd : v % 2 ≠ 0
  · rw [if_pos hodd, State.tlbUpdateBadvaddrEntry, State.half_setEntry hn hk]
    grind [State.half, TlbEntry.half]
  · rw [if_neg hodd, State.tlbUpdateBadvaddrEntry, State.half_setEntry hn hk]
    grind [State.half, TlbEntry.half]

theorem State.writeNewEntry_frame (s : State) (k1 a : Nat) (lo0 lo1 : EntryLo) (v pa : Nat)
    (inv : Bool) :
    (s.writeNewEntry k1 a lo0 lo1 v pa inv).links = s.links ∧
      (s.writeNewEntry k1 a lo0 lo1 v pa inv).page = s.page ∧
      (s.writeNewEntry k1 a lo0 lo1 v pa inv).ram = s.ram := by
  rw [State.writeNewEntry]
  split
  · exact ⟨rfl, rfl, rfl⟩
  · exact ⟨rfl, rfl, rfl⟩

structure Loaded (B : Boot) (s₁ s' : State) (vic : Frame) (v : Nat) : Prop where
  queued : Queued B.Accepts s'.links
  page : s'.page = s₁.page
  ram : s'.ram = s₁.ram.copy (vicVa (paByPage vic)) (B.flash v) tlbPageSize
  half : ∀ n < 2 * B.platform.numTlbEntry,
    s'.half n = if n = v then ⟨paToPfn (paByPage vic), true⟩ else s₁.half n

section
variable (ht : Taken B s s₁ vic v inv) (hl : Loaded B s₁ s' vic v)
include ht hl

theorem Loaded.page_victim : s'.page vic = { s.page vic with vpageNum := v, entLoIdx := v % 2 } := by
  rw [hl.page, ht.page, Function.update_self]

theorem Loaded.page_other (hf : f ≠ vic) : s'.page f = s.page f := by
  rw [hl.page, ht.page, Function.update_of_ne hf]

theorem Loaded.mappedTo_victim (hvic : B.Accepts vic) (hv : v < 2 * B.platform.numTlbEntry) :
    MappedTo B s' v vic where
  accepted := hvic
  pfn := by rw [hl.half v hv, if_pos rfl]
  vpageNum := by rw [hl.page_victim ht]
  entLoIdx := by rw [hl.page_victim ht]
  contents k hk := by
    rw [hl.ram]
    exact Mem.copy_inside _ _ hk

theorem Loaded.mappedTo_other (hm : MappedTo B s n f) (hf : f ≠ vic)
    (hn : n < 2 * B.platform.numTlbEntry) (hnv : n ≠ v) : MappedTo B s' n f where
  accepted := hm.accepted
  pfn := by rw [hl.half n hn, if_neg hnv, ht.pfn n hn, hm.pfn]
  vpageNum := by rw [hl.page_other ht hf, hm.vpageNum]
  entLoIdx := by rw [hl.page_other ht hf, hm.entLoIdx]
  contents k hk := by
    have hslot : vic.val ≠ f.val := fun he => hf (Fin.ext he.symm)
    rw [hl.ram, ← hm.contents k hk, ← ht.ram, vicVa_paByPage, vicVa_paByPage]
    exact Mem.copy_other_slot _ _ hslot hk

end

theorem Loaded.keepsInv (h : Inv B s) (ht : Taken B s s₁ vic v inv) (hl : Loaded B s₁ s' vic v)
    (hvic : B.Accepts vic) (hv : v < B.platform.numTlbEntry) (hva : v < B.platform.numVaPages) :
    Inv B s' where
  queued := hl.queued
  pa f hf := by
    by_cases hfv : f = vic
    · subst hfv
      rw [hl.page_victim ht]
      exact h.pa f hf
    · rw [hl.page_other ht hfv]
      exact h.pa f hf
  record f hf := by
    by_cases hfv : f = vic
    · subst hfv
      rw [hl.page_victim ht]
      exact .inr ⟨hv, hva, rfl⟩
    · rw [hl.page_other ht hfv]
      exact h.record f hf
  stale n hn hpfn := by
    rw [hl.half n hn] at hpfn ⊢
    by_cases hnv : n = v
    · rw [if_pos hnv]
      exact ⟨vic, hvic, rfl⟩
    · rw [if_neg hnv, ht.pfn n hn] at hpfn ⊢
      exact h.stale n hn hpfn
  mapped n hn hvalid := by
    by_cases hnv : n = v
    · subst hnv
      exact ⟨vic, hl.mappedTo_victim ht hvic hn⟩
    · rw [hl.half n hn, if_neg hnv] at hvalid
      obtain ⟨hold, hne⟩ := ht.valid n hn hvalid
      obtain ⟨f, hf⟩ := h.mapped n hn hold
      have hfv : f ≠ vic := by
        rintro rfl
        exact hne hf.pfn
      exact ⟨f, hl.mappedTo_other ht hf hfv hn hnv⟩

structure Resolved (B : Boot) (s s' : State) (v : Nat) : Prop where
  inv : Inv B s'
  valid : (s'.half v).v
  others : ∀ n < 2 * B.platform.numTlbEntry, n ≠ v → (s'.half n).v → (s.half n).v

theorem Inv.vaToPa_ok (h : Inv B s) (habove : mmuVmBaseAddr ≤ a)
    (hbelow : a < mmuVmBaseAddr + B.platform.mmuVmSize) (hidx : entryloIdx a = v % 2)
    (hv : v < B.platform.numTlbEntry) (hva : v < B.platform.numVaPages)
    (hinvalid : (s.half v).v = false) :
    ∃ s', mmuTlbMissVaToPa B.platform B.read (v / 2) a (s.getEntry (v / 2)).lo0
        (s.getEntry (v / 2)).lo1 v s = .ok s' ∧ Resolved B s s' v := by
  have hle := B.platform.numTlbEntry_le
  have hboth : ¬((s.getEntry (v / 2)).lo0.v ∧ (s.getEntry (v / 2)).lo1.v) := by
    rintro ⟨h0, h1⟩
    rw [State.half, TlbEntry.half] at hinvalid
    split at hinvalid
    · rw [h1] at hinvalid
      cases hinvalid
    · rw [h0] at hinvalid
      cases hinvalid
  obtain ⟨f, hf⟩ := B.exists_accepts
  obtain ⟨l, vic, hfind, hvic⟩ := h.queued.findVictim_ok hf s.lowestLevel
  have hs : Inv B { s with lowestLevel := l } := h.congr h.queued rfl rfl (fun _ _ => rfl)
  obtain ⟨s₁, inv, htake, ht⟩ := hs.takeVictim_ok hvic v
  have hpa : (s₁.page vic).pa = paByPage vic := by
    rw [ht.page, Function.update_self]
    exact h.pa vic hvic
  let s₂ := { s₁ with ram := s₁.ram.copy (vicVa (paByPage vic)) (B.flash v) tlbPageSize }
  have hqueued : Queued B.Accepts s₂.links := ht.queued
  obtain ⟨k, hbud, hq⟩ := h.promoteBuddy_ok hqueued hv
  let s₃ := { s₂ with links := k }.increaseAsid
  refine ⟨s₃.writeNewEntry (v / 2) a (s.getEntry (v / 2)).lo0 (s.getEntry (v / 2)).lo1 v
    (paByPage vic) inv, ?_, ?_⟩
  · simp only [mmuTlbMissVaToPa, Nat.not_lt.mpr habove, Nat.not_le.mpr hbelow, hboth, if_false,
      hfind, ok_bind, hidx, htake, hpa, B.reads v hva]
    rw [hbud]
    rfl
  · have hsame : inv = false → s.getEntry (v / 2) = s₃.getEntry (v / 2) := by
      intro hi
      have htlb : s₃.tlb = s.tlb := ht.same hi
      rw [State.getEntry, State.getEntry, htlb]
    have hhalf : ∀ n < 2 * B.platform.numTlbEntry, _ := fun n hn =>
      State.half_writeNewEntry (s := s₃) (B.half_lt hn) (by omega) hidx hsame (paByPage vic)
    obtain ⟨hlinks, hpage, hram⟩ := s₃.writeNewEntry_frame (v / 2) a (s.getEntry (v / 2)).lo0
      (s.getEntry (v / 2)).lo1 v (paByPage vic) inv
    have hl : Loaded B s₁ _ vic v := ⟨hlinks.symm ▸ hq, hpage, hram, hhalf⟩
    refine ⟨hl.keepsInv hs ht hvic hv hva, ?_, fun n hn hnv hvalid => ?_⟩
    · rw [hhalf v (by omega), if_pos rfl]
    · rw [hhalf n hn, if_neg hnv] at hvalid
      exact (ht.valid n hn hvalid).1

theorem Inv.checkFirst_ok (h : Inv B s) (hidx : entryloIdx a = v % 2)
    (hv : v < B.platform.numTlbEntry) (hvalid : (s.half v).v) :
    ∃ s', mmuTlbMissCheckFirst (v / 2) a (s.getEntry (v / 2)).lo0 (s.getEntry (v / 2)).lo1 s =
      .ok (s', true) ∧ Resolved B s s' v := by
  have hle := B.platform.numTlbEntry_le
  have hlo : (if v % 2 ≠ 0 then (s.getEntry (v / 2)).lo1 else (s.getEntry (v / 2)).lo0) =
      s.half v := rfl
  obtain ⟨f, hf⟩ := h.mapped v (by omega) hvalid
  have hpfn : (s.half v).pfn ≠ 0 := hf.pfn ▸ paToPfn_ne_zero f
  let s₁ := s.tlbUpdateBadvaddrEntry (v / 2) (s.syncEntryhi (getEntryhi a))
    (s.getEntry (v / 2)).lo0 (s.getEntry (v / 2)).lo1
  have hhalf : ∀ n < 2 * B.platform.numTlbEntry, s₁.half n = s.half n := by
    intro n hn
    refine (State.half_setEntry (B.half_lt hn) (by omega)).trans ?_
    split
    next hk =>
      rw [← hk]
      rfl
    next => rfl
  obtain ⟨k, hk, hq⟩ := State.promote_ok (s := s₁) h.queued hf.accepted
  refine ⟨{ s₁ with links := k }, ?_, h.congr hq rfl rfl hhalf, ?_, fun n hn _ hn' => ?_⟩
  · simp only [mmuTlbMissCheckFirst, hidx, hlo, hvalid, hpfn, Bool.true_eq_false, if_false]
    rw [hf.pfn, hk]
    rfl
  · exact (hhalf v (by omega)).symm ▸ hvalid
  · exact hhalf n hn ▸ hn'

theorem Inv.checkFirst_invalid (hidx : entryloIdx a = v % 2) (hinvalid : (s.half v).v = false) :
    mmuTlbMissCheckFirst (v / 2) a (s.getEntry (v / 2)).lo0 (s.getEntry (v / 2)).lo1 s =
      .ok (s, false) := by
  have hlo : (if v % 2 ≠ 0 then (s.getEntry (v / 2)).lo1 else (s.getEntry (v / 2)).lo0) =
      s.half v := rfl
  simp only [mmuTlbMissCheckFirst, hidx, hlo, hinvalid, if_true]

theorem Inv.isr_ok {m : Miss} (h : Inv B s) (hm : B.Occurs s m)
    (hkind : m.kind = .invalid → (s.half (m.vpageNum B.platform)).v = false) :
    ∃ s', B.isr s m = .ok s' ∧ Resolved B s s' (m.vpageNum B.platform) := by
  have hnum := m.vpageNum_eq B.platform hm.above
  have hidx := m.entryloIdx_eq B.platform
  have hv : m.vpageNum B.platform < B.platform.numTlbEntry :=
    hnum ▸ Nat.mod_lt _ B.platform.numTlbEntry_pos
  have hva : m.vpageNum B.platform < B.platform.numVaPages :=
    hnum ▸ Nat.lt_of_le_of_lt (Nat.mod_le _ _) hm.page_lt
  rw [Boot.isr, plrTlbMissIsr, shiftRight_one]
  cases hk : m.kind with
  | invalid => exact h.vaToPa_ok hm.above hm.below hidx hv hva (hkind hk)
  | refill =>
    cases hvalid : (s.half (m.vpageNum B.platform)).v with
    | true =>
      obtain ⟨s', hs', hres⟩ := h.checkFirst_ok hidx hv hvalid
      refine ⟨s', ?_, hres⟩
      simp only [hs', ok_bind, if_true]
      rfl
    | false =>
      obtain ⟨s', hs', hres⟩ := h.vaToPa_ok hm.above hm.below hidx hv hva hvalid
      refine ⟨s', ?_, hres⟩
      simp only [Inv.checkFirst_invalid hidx hvalid, ok_bind, Bool.false_eq_true, if_false]
      exact hs'

end Load

-- ---------------------------------------------------------------------------
-- Runs
-- ---------------------------------------------------------------------------

section Runs

variable {B : Boot} {s : State} {m : Miss}

theorem Boot.Occurs.vpageNum_eq_page (hm : B.Occurs s m)
    (hcover : B.platform.numVaPages ≤ B.platform.numTlbEntry) :
    m.vpageNum B.platform = m.page := by
  rw [m.vpageNum_eq B.platform hm.above]
  exact Nat.mod_eq_of_lt (Nat.lt_of_lt_of_le hm.page_lt hcover)

theorem Inv.isr_covered (h : Inv B s) (hm : B.Occurs s m)
    (hcover : B.platform.numVaPages ≤ B.platform.numTlbEntry) :
    ∃ s', B.isr s m = .ok s' ∧ Resolved B s s' m.page := by
  have hpage := hm.vpageNum_eq_page hcover
  rw [← hpage]
  exact h.isr_ok hm (fun hk => hpage.symm ▸ hm.invalid hk)

theorem Boot.Reached.inv (h : B.Reached s)
    (hcover : B.platform.numVaPages ≤ B.platform.numTlbEntry) : Inv B s := by
  induction h with
  | start => exact B.inv_start
  | miss _ hm hisr ih =>
    obtain ⟨s', hs', hres⟩ := ih.isr_covered hm hcover
    rw [hisr] at hs'
    cases hs'
    exact hres.inv

end Runs

def Platform.aliasedMiss (P : Platform) : Miss :=
  ⟨.invalid, mmuVmBaseAddr + P.numTlbEntry * tlbPageSize⟩

theorem Platform.aliasedMiss_page (P : Platform) : P.aliasedMiss.page = P.numTlbEntry := by
  rw [Miss.page, Platform.aliasedMiss, Nat.add_sub_cancel_left]
  exact Nat.mul_div_cancel _ (by decide)

theorem Boot.not_demandPaging (B : Boot)
    (hlt : ¬B.platform.numVaPages ≤ B.platform.numTlbEntry) : ¬B.DemandPaging := by
  intro h
  have hpos := B.platform.numTlbEntry_pos
  have hpage := B.platform.aliasedMiss_page
  have hstart : ∀ n < 2 * B.platform.numTlbEntry, (B.start.half n).v = false := by
    intro n hn
    rw [B.half_start hn]
  have hm : B.Occurs B.start B.platform.aliasedMiss := by
    refine ⟨Nat.le_add_right _ _, ?_, fun _ => hpage ▸ hstart _ (by omega)⟩
    have hsize : tlbPageSize = 4096 := rfl
    rw [Platform.numVaPages, hsize] at hlt
    change mmuVmBaseAddr + B.platform.numTlbEntry * 4096 < _
    omega
  have hnum : B.platform.aliasedMiss.vpageNum B.platform = 0 := by
    rw [Miss.vpageNum_eq _ _ hm.above, hpage, Nat.mod_self]
  obtain ⟨s', hs', hvalid, -⟩ := h B.start _ .start hm
  obtain ⟨s'', hs'', hres⟩ := B.inv_start.isr_ok hm
    (fun _ => hnum.symm ▸ hstart 0 (by omega))
  cases hs'.symm.trans hs''
  have hold := hres.others _ (by omega) (by omega) hvalid
  rw [hstart _ (by omega)] at hold
  cases hold

/-- Demand paging works exactly if `TLB_NUM_TLB_MASK` covers the pages of the area. -/
theorem Boot.demandPaging_iff (B : Boot) :
    B.DemandPaging ↔ B.platform.numVaPages ≤ B.platform.numTlbEntry := by
  constructor
  · intro h
    by_contra hlt
    exact B.not_demandPaging hlt h
  · intro hcover s m hs hm
    obtain ⟨s', hs', hres⟩ := (hs.inv hcover).isr_covered hm hcover
    exact ⟨s', hs', hres.valid, hres.inv.consistent⟩

/-- The shipped sizes, with the upper half of the SRAM as frames and a flash whose pages
are filled with their numbers. -/
def boot9603cvd : Boot where
  platform := platform9603cvd
  onePerPair := Nat.le_refl 64
  phyStart := 0x9f004000
  phyEnd := 0x9f008000
  links := ⟨id, id⟩
  page := fun _ => ⟨0, 0, 0, 0⟩
  tlb := fun _ => ⟨0, ⟨0, false⟩, ⟨0, false⟩⟩
  ram := fun _ => 0xff
  accepts := Nat.succ_pos 3
  flash := fun n _ => UInt8.ofNat n
  read := fun n => some (fun _ => UInt8.ofNat n)
  reads := fun _ _ => rfl

/-- After a miss of page 32 its own entry is still invalid; the entry of page 0 carries
the address of page 32 and maps a frame with the contents of page 0. -/
theorem boot9603cvd_page32 : ¬boot9603cvd.DemandPaging ∧
    (boot9603cvd.isr boot9603cvd.start ⟨.invalid, 0xC0020000⟩).toOption.map (fun s =>
      ((s.half 32).v, s.getEntry 0, s.ram 0x9f004000)) =
      some (false, ⟨0xC0020001, ⟨0x9f004, true⟩, ⟨0, false⟩⟩, 0) :=
  ⟨boot9603cvd.not_demandPaging (by decide), by decide +kernel⟩

end BismarckPreloader.Mmu
