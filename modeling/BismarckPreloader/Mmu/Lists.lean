import BismarckPreloader.Mmu.Paging

/-!
# The level lists over any sequence of calls

`mmu_tlb_miss_check_first` and `mmu_tlb_miss_va_to_pa` may be called in any order. Nothing is
assumed here about the size of the virtual area, about reads or about the address: a call
that does not return has no state after it.

What holds after every call is small: the lists hold the accepted frames, the half-entries of
the TLB name accepted frames, and `list_num` is what `mmu_drv_init` has set.
-/

namespace BismarckPreloader.Mmu

/-- The pager when `mmu_drv_init` has accepted a frame. Memory and TLB are arbitrary before. -/
structure Pager where
  platform : Platform
  phyStart : Nat
  phyEnd : Nat
  links : Links Node
  page : Frame → PageSt
  tlb : Nat → TlbEntry
  ram : Mem
  read : Nat → Option (Nat → UInt8)
  accepts : 0 < (mmuDrvInit platform phyStart phyEnd ⟨links, page, 0, 0, tlb, ram⟩).2

inductive CallKind where
  | checkFirst
  | vaToPa
  deriving DecidableEq

/-- A call as the handler makes it: the index and the half-entries come from the page number. -/
structure Call where
  kind : CallKind
  badvaddr : Nat
  vpageNum : Nat
  deriving DecidableEq

namespace Pager

variable (D : Pager)

def start : State :=
  (mmuDrvInit D.platform D.phyStart D.phyEnd ⟨D.links, D.page, 0, 0, D.tlb, D.ram⟩).1

def Accepts (f : Frame) : Prop := D.phyStart ≤ paByPage f ∧ paByPage f < D.phyEnd

def checkFirst (s : State) (a v : Nat) : Except Stuck (State × Bool) :=
  mmuTlbMissCheckFirst (v >>> 1) a (s.getEntry (v >>> 1)).lo0 (s.getEntry (v >>> 1)).lo1 s

def vaToPa (s : State) (a v : Nat) : Except Stuck State :=
  mmuTlbMissVaToPa D.platform D.read (v >>> 1) a (s.getEntry (v >>> 1)).lo0
    (s.getEntry (v >>> 1)).lo1 v s

def call (s : State) (c : Call) : Except Stuck State :=
  match c.kind with
  | .checkFirst => (checkFirst s c.badvaddr c.vpageNum).map Prod.fst
  | .vaToPa => D.vaToPa s c.badvaddr c.vpageNum

inductive Reached : State → Prop
  | start : Reached D.start
  | call (hs : Reached s) (hc : c.vpageNum < 2 * D.platform.numTlbEntry)
      (h : D.call s c = .ok s') : Reached s'

/-- The level lists hold each accepted frame once and nothing else. The links go through each
list and back to its header both ways, and the victim search ends on a frame of the driver. -/
structure Partition (s : State) (lists : Level → List Frame) : Prop where
  ring : ∀ l, s.links.IsRing (.level l) ((lists l).map .page)
  nodup : ∀ l, (lists l).Nodup
  once : ∀ f, D.Accepts f → ∃! l, f ∈ lists l
  only : ∀ l, ∀ f ∈ lists l, D.Accepts f
  victim : ∃ l f, findVictim s.links numLevel s.lowestLevel = .ok (l, f) ∧ D.Accepts f

end Pager

-- ---------------------------------------------------------------------------
-- The start
-- ---------------------------------------------------------------------------

def Platform.withoutArea (P : Platform) : Platform := ⟨0, P.tlbBits, P.bits_pos, P.bits_le⟩

theorem Platform.numVaPages_withoutArea (P : Platform) : P.withoutArea.numVaPages = 0 := by
  simp [numVaPages, withoutArea, tlbPageSize, tlbPageShift]

theorem Platform.withoutArea_onePerPair (P : Platform) :
    P.withoutArea.numVaPages ≤ 2 * P.withoutArea.numTlbEntry := by
  rw [P.numVaPages_withoutArea]
  exact Nat.zero_le _

theorem Platform.withoutArea_reads (P : Platform) (read : Nat → Option (Nat → UInt8))
    (flash : Nat → Nat → UInt8) : ∀ n < P.withoutArea.numVaPages, read n = some (flash n) := by
  intro n hn
  rw [P.numVaPages_withoutArea] at hn
  exact absurd hn (Nat.not_lt_zero n)

namespace Pager

variable (D : Pager)

def boot : Boot where
  platform := D.platform.withoutArea
  onePerPair := D.platform.withoutArea_onePerPair
  phyStart := D.phyStart
  phyEnd := D.phyEnd
  links := D.links
  page := D.page
  tlb := D.tlb
  ram := D.ram
  accepts := D.accepts
  flash _ _ := 0
  read := D.read
  reads := D.platform.withoutArea_reads D.read _

theorem exists_accepts : ∃ f, D.Accepts f := D.boot.exists_accepts

def Known (lo : EntryLo) : Prop := lo.pfn ≠ 0 → ∃ f, D.Accepts f ∧ lo.pfn = paToPfn (paByPage f)

structure Kept (s : State) : Prop where
  queued : Queued D.Accepts s.links
  pa : ∀ f, D.Accepts f → (s.page f).pa = paByPage f
  listNum : ∀ f, D.Accepts f → (s.page f).listNum = 0
  known : ∀ i < D.platform.numTlbEntry, ∀ b, D.Known ((s.getEntry i).half b)

theorem half_start {i : Nat} (hi : i < D.platform.numTlbEntry) (b : Nat) :
    (D.start.getEntry i).half b = ⟨0, false⟩ := by
  have hle := D.platform.numTlbEntry_le
  obtain ⟨h0, h1⟩ := clearEntry_tlb ⟨D.links, D.page, 0, 0, D.tlb, D.ram⟩ D.platform.numTlbEntry
    hle hi
  rw [State.getEntry, Nat.mod_eq_of_lt (by omega), show D.start.tlb = _ from D.boot.initInv.tlb,
    TlbEntry.half]
  split
  · exact h1
  · exact h0

theorem kept_start : D.Kept D.start := by
  have hinit := D.boot.initInv
  have hpage : ∀ f, D.Accepts f → D.start.page f = ⟨paByPage f, psvaFree, 0, 0⟩ :=
    fun f => hinit.page f (List.mem_finRange f)
  refine ⟨?_, fun f hf => ?_, fun f hf => ?_, fun i hi b hpfn => ?_⟩
  · exact hinit.queued.congr (fun f => and_iff_right (List.mem_finRange f))
  · rw [hpage f hf]
  · rw [hpage f hf]
  · rw [D.half_start hi] at hpfn
    exact absurd rfl hpfn

end Pager

section Entries

variable {s : State}

theorem State.getEntry_setEntry (s : State) (k i : Nat) (e : TlbEntry) :
    (s.setEntry k e).getEntry i = if i % 64 = k % 64 then e else s.getEntry i := by
  simp only [getEntry, setEntry, Function.update_apply]

def TlbEntry.fill (e : TlbEntry) (hi b : Nat) (lo : EntryLo) : TlbEntry :=
  if b ≠ 0 then ⟨hi, e.lo0, lo⟩ else ⟨hi, lo, e.lo1⟩

theorem TlbEntry.half_fill (e : TlbEntry) (hi b b' : Nat) (lo : EntryLo) :
    (e.fill hi b lo).half b' = if (b' ≠ 0) = (b ≠ 0) then lo else e.half b' := by
  by_cases hb : b = 0 <;> by_cases hb' : b' = 0 <;> simp [fill, half, hb, hb']

theorem State.half_invalidated (s : State) (w x i b : Nat) :
    ((s.invalidTlbEntry w x).getEntry i).half b =
      if i % 64 = (w >>> 1) % 64 ∧ (b ≠ 0) = (x ≠ 0) then
        { (s.getEntry i).half b with v := false }
      else (s.getEntry i).half b := by
  have hsame : i % 64 = (w >>> 1) % 64 → s.getEntry (w >>> 1) = s.getEntry i := by
    intro h
    rw [getEntry, getEntry, h]
  simp only [invalidTlbEntry]
  by_cases hi : i % 64 = (w >>> 1) % 64
  · by_cases hx : x = 0 <;> by_cases hb : b = 0 <;>
      simp [hx, hb, getEntry_setEntry, hi, hsame hi, TlbEntry.half]
  · by_cases hx : x = 0 <;> simp [hx, getEntry_setEntry, hi]

def State.evicted (s : State) (vic : Frame) : State :=
  if (s.page vic).vpageNum ≠ psvaFree then
    s.invalidTlbEntry (s.page vic).vpageNum (s.page vic).entLoIdx
  else s

theorem State.evicted_frame (s : State) (vic : Frame) :
    (s.evicted vic).links = s.links ∧ (s.evicted vic).page = s.page ∧
      (s.evicted vic).lowestLevel = s.lowestLevel := by
  unfold evicted invalidTlbEntry
  split
  · split
    · exact ⟨rfl, rfl, rfl⟩
    · exact ⟨rfl, rfl, rfl⟩
  · exact ⟨rfl, rfl, rfl⟩

theorem State.evicted_eq (s : State) (vic : Frame) :
    (if decide ((s.page vic).vpageNum ≠ psvaFree) = true then
      s.invalidTlbEntry (s.page vic).vpageNum (s.page vic).entLoIdx else s) = s.evicted vic := by
  simp only [evicted, decide_eq_true_eq]

theorem State.pfn_evicted (s : State) (vic : Frame) (i b : Nat) :
    (((s.evicted vic).getEntry i).half b).pfn = ((s.getEntry i).half b).pfn := by
  unfold evicted
  split
  · rw [half_invalidated]
    split
    · rfl
    · rfl
  · rfl

end Entries

-- ---------------------------------------------------------------------------
-- The calls
-- ---------------------------------------------------------------------------

/-- The links after a promotion of a frame whose `list_num` is 0. -/
def raise (lowest : Level) (f : Frame) (k : Links Node) : Links Node :=
  if promoLevel 0 ≠ lowest then k.moveTail (.level (promoLevel 0)) (.page f) else k

theorem Queued.raise {frames : Frame → Prop} {k : Links Node} (h : Queued frames k)
    (hf : frames f) (lowest : Level) : Queued frames (raise lowest f k) := by
  unfold Mmu.raise
  split
  · exact h.moveTail hf _
  · exact h

theorem State.promote_eq {frames : Frame → Prop} {s : State} (h : Queued frames s.links)
    (hf : frames f) (hzero : (s.page f).listNum = 0) :
    s.promote (paToPfn (paByPage f)) = .ok { s with links := raise s.lowestLevel f s.links } := by
  rw [State.promote, ppageNum_paToPfn, hzero, raise]
  split
  · rw [State.moveToList, if_neg (h.next_ne_null hf)]
  · rfl

def raiseBuddy (lowest : Level) (lo : EntryLo) (k : Links Node) : Links Node :=
  if lo.pfn ≠ 0 then raise lowest (ppageNum lo.pfn) k else k

def TlbEntry.buddy (e : TlbEntry) (b : Nat) : EntryLo := if b ≠ 0 then e.lo0 else e.lo1

theorem TlbEntry.buddy_eq (e : TlbEntry) (b : Nat) :
    e.buddy b = e.half (if b ≠ 0 then 0 else 1) := by
  by_cases hb : b = 0 <;> simp [buddy, half, hb]

structure Loads (s s' : State) (a v : Nat) (l : Level) (vic : Frame) : Prop where
  victim : findVictim s.links numLevel s.lowestLevel = .ok (l, vic)
  level : s'.lowestLevel = l
  links : s'.links = raiseBuddy l ((s.getEntry (v >>> 1)).buddy (entryloIdx a))
    (s.links.moveTail (.level (promoLevel2 l)) (.page vic))
  page : s'.page = Function.update s.page vic
    { s.page vic with vpageNum := v, entLoIdx := entryloIdx a }
  tlb : ∃ hi, s'.tlb = ((s.evicted vic).setEntry (v >>> 1)
    (((s.evicted vic).getEntry (v >>> 1)).fill hi (entryloIdx a)
      ⟨paToPfn (s.page vic).pa, true⟩)).tlb

theorem Loads.half {s s' : State} (hl : Loads s s' a v l vic) (i b : Nat) : (s'.getEntry i).half b =
    if i % 64 = (v >>> 1) % 64 ∧ (b ≠ 0) = (entryloIdx a ≠ 0) then
      ⟨paToPfn (s.page vic).pa, true⟩
    else ((s.evicted vic).getEntry i).half b := by
  obtain ⟨hi, htlb⟩ := hl.tlb
  have hget : s'.getEntry i = ((s.evicted vic).setEntry (v >>> 1)
      (((s.evicted vic).getEntry (v >>> 1)).fill hi (entryloIdx a)
        ⟨paToPfn (s.page vic).pa, true⟩)).getEntry i := by
    rw [State.getEntry, State.getEntry, htlb]
  rw [hget, State.getEntry_setEntry]
  by_cases hk : i % 64 = (v >>> 1) % 64
  · have hsame : (s.evicted vic).getEntry (v >>> 1) = (s.evicted vic).getEntry i := by
      rw [State.getEntry, State.getEntry, hk]
    rw [if_pos hk, TlbEntry.half_fill, hsame]
    simp only [hk, true_and]
  · rw [if_neg hk, if_neg fun h => hk h.1]

theorem recorded_fields (page : Frame → PageSt) (vic f : Frame) (v b : Nat) :
    (Function.update page vic { page vic with vpageNum := v, entLoIdx := b } f).pa =
        (page f).pa ∧
      (Function.update page vic { page vic with vpageNum := v, entLoIdx := b } f).listNum =
        (page f).listNum := by
  rw [Function.update_apply]
  split
  next hf => exact hf ▸ ⟨rfl, rfl⟩
  next => exact ⟨rfl, rfl⟩

structure Takes (s s₁ : State) (vic : Frame) (v b : Nat) : Prop where
  links : s₁.links = s.links.moveTail (.level (promoLevel2 s.lowestLevel)) (.page vic)
  page : s₁.page = Function.update s.page vic { s.page vic with vpageNum := v, entLoIdx := b }
  level : s₁.lowestLevel = s.lowestLevel
  tlb : s₁.tlb = (s.evicted vic).tlb

theorem takeVictim_takes {frames : Frame → Prop} {s : State} {P : Platform}
    (hq : Queued frames s.links) (hvic : frames vic)
    (h : s.takeVictim P vic v b = .ok (s₁, inv)) :
    Takes s s₁ vic v b ∧ (inv = false → s₁.tlb = s.tlb) := by
  obtain ⟨hlinks, hpage, hlevel⟩ := s.evicted_frame vic
  simp only [State.takeVictim] at h
  split at h
  · cases h
  split at h
  · cases h
  rw [bind_ok] at h
  obtain ⟨s₂, hmove, hpure⟩ := h
  cases hpure
  rw [s.evicted_eq, State.moveToList] at hmove
  simp only [State.recordPage, hlinks, hlevel, hpage, if_neg (hq.next_ne_null hvic)] at hmove
  cases hmove
  refine ⟨⟨rfl, rfl, rfl, rfl⟩, fun hinv => ?_⟩
  rw [decide_eq_false_iff_not, not_not] at hinv
  rw [State.evicted, if_neg (not_not.mpr hinv)]

theorem State.evicted_tlb_congr {s t : State} (htlb : t.tlb = s.tlb) (hpage : t.page = s.page)
    (vic : Frame) : (t.evicted vic).tlb = (s.evicted vic).tlb := by
  simp only [State.evicted, State.invalidTlbEntry, State.getEntry, State.setEntry, htlb, hpage]
  split
  · split
    · rfl
    · rfl
  · exact htlb

theorem State.writeNewEntry_eq (t : State) (k a : Nat) {e : TlbEntry} (v pa : Nat) {inv : Bool}
    (he : inv = false → e = t.getEntry (v >>> 1)) :
    t.writeNewEntry k a e.lo0 e.lo1 v pa inv = t.setEntry k ((t.getEntry (v >>> 1)).fill
      (t.syncEntryhi (getEntryhi a)) (entryloIdx a) ⟨paToPfn pa, true⟩) := by
  have hread : ∀ {α : Type} (g : TlbEntry → α),
      (if inv = true then g (t.getEntry (v >>> 1)) else g e) = g (t.getEntry (v >>> 1)) := by
    intro α g
    cases inv with
    | true => rfl
    | false => rw [he rfl, ite_self]
  rw [State.writeNewEntry, hread, hread, TlbEntry.fill]
  split
  · rfl
  · rfl

namespace Pager

variable {D : Pager} {s s' : State} {a v : Nat}

theorem Kept.known_buddy (h : D.Kept s) (hv : v < 2 * D.platform.numTlbEntry) (b : Nat) :
    D.Known ((s.getEntry (v >>> 1)).buddy b) := by
  rw [TlbEntry.buddy_eq]
  exact h.known _ (by rw [shiftRight_one]; omega) _

theorem promoteBuddy_eq {t : State} (hq : Queued D.Accepts t.links)
    (hzero : ∀ f, D.Accepts f → (t.page f).listNum = 0) {e : TlbEntry} {b : Nat}
    (hknown : D.Known (e.buddy b)) :
    t.promoteBuddy b e.lo0 e.lo1 =
      .ok { t with links := raiseBuddy t.lowestLevel (e.buddy b) t.links } := by
  change (if (e.buddy b).pfn ≠ 0 then t.promote (e.buddy b).pfn else _) = _
  unfold raiseBuddy
  split
  next hpfn =>
    obtain ⟨f, hf, hf'⟩ := hknown hpfn
    rw [hf', ppageNum_paToPfn]
    exact State.promote_eq hq hf (hzero f hf)
  next => rfl

/-- A load that returned, read back: the victim is taken, the page is read to it, the other
half is promoted and the entry written. -/
theorem vaToPa_returned (hfind : findVictim s.links numLevel s.lowestLevel = .ok (l, vic))
    (hc : D.vaToPa s a v = .ok s') :
    ∃ s₁ inv data t,
      State.takeVictim D.platform { s with lowestLevel := l } vic v (entryloIdx a) =
        .ok (s₁, inv) ∧
      State.promoteBuddy
        { s₁ with ram := s₁.ram.copy (vicVa (s₁.page vic).pa) data tlbPageSize } (entryloIdx a)
        (s.getEntry (v >>> 1)).lo0 (s.getEntry (v >>> 1)).lo1 = .ok t ∧
      s' = t.increaseAsid.writeNewEntry (v >>> 1) a (s.getEntry (v >>> 1)).lo0
        (s.getEntry (v >>> 1)).lo1 v (s₁.page vic).pa inv := by
  simp only [vaToPa, mmuTlbMissVaToPa] at hc
  split at hc
  · cases hc
  split at hc
  · cases hc
  split at hc
  · cases hc
  rw [hfind, ok_bind, bind_ok] at hc
  obtain ⟨⟨s₁, inv⟩, htake, hc⟩ := hc
  simp only at hc
  cases hread : D.read v with
  | none =>
    rw [hread] at hc
    cases hc
  | some data =>
    rw [hread] at hc
    obtain ⟨t, hbud, hpure⟩ := bind_ok.mp hc
    cases hpure
    exact ⟨s₁, inv, data, t, htake, hbud, rfl⟩

theorem Kept.takes (h : D.Kept s) (hvic : D.Accepts vic)
    (ht : Takes { s with lowestLevel := l } s₁ vic v b) :
    Queued D.Accepts s₁.links ∧ ∀ f, D.Accepts f → (s₁.page f).listNum = 0 := by
  refine ⟨ht.links ▸ h.queued.moveTail hvic _, fun f hf => ?_⟩
  rw [ht.page, (recorded_fields ..).2]
  exact h.listNum f hf

theorem Kept.vaToPa_loads (h : D.Kept s) (hv : v < 2 * D.platform.numTlbEntry)
    (hc : D.vaToPa s a v = .ok s') : ∃ l vic, D.Accepts vic ∧ Loads s s' a v l vic := by
  obtain ⟨f, hf⟩ := D.exists_accepts
  obtain ⟨l, vic, hfind, hvic⟩ := h.queued.findVictim_ok hf s.lowestLevel
  obtain ⟨s₁, inv, data, t, htake, hbud, rfl⟩ := vaToPa_returned hfind hc
  obtain ⟨ht, hsame⟩ := takeVictim_takes (s := { s with lowestLevel := l }) h.queued hvic htake
  obtain ⟨hq, hzero⟩ := h.takes hvic ht
  have hpa : (s₁.page vic).pa = (s.page vic).pa := by
    rw [ht.page, (recorded_fields ..).1]
  have htlb : s₁.tlb = (s.evicted vic).tlb := ht.tlb.trans
    (State.evicted_tlb_congr (s := s) (t := { s with lowestLevel := l }) rfl rfl vic)
  let s₂ := { s₁ with ram := s₁.ram.copy (vicVa (s₁.page vic).pa) data tlbPageSize }
  have hraise := promoteBuddy_eq (t := s₂) hq hzero (h.known_buddy hv (entryloIdx a))
  obtain rfl := Except.ok.inj (hbud.symm.trans hraise)
  let k := raiseBuddy s₁.lowestLevel ((s.getEntry (v >>> 1)).buddy (entryloIdx a)) s₁.links
  let s₃ := { s₂ with links := k }.increaseAsid
  have hentry : inv = false → s.getEntry (v >>> 1) = s₃.getEntry (v >>> 1) := by
    intro hi
    have hs₃ : s₃.tlb = s.tlb := hsame hi
    rw [State.getEntry, State.getEntry, hs₃]
  refine ⟨l, vic, hvic, ?_⟩
  rw [s₃.writeNewEntry_eq (v >>> 1) a v _ hentry, hpa]
  refine ⟨hfind, ht.level, ?_, ht.page, s₃.syncEntryhi (getEntryhi a), ?_⟩
  · change raiseBuddy s₁.lowestLevel _ s₁.links = _
    rw [ht.level, ht.links]
  · have hs₃ : s₃.tlb = (s.evicted vic).tlb := htlb
    simp only [State.setEntry, State.getEntry, hs₃]

/-- The miss is resolved: the entry is written back with a new high part. -/
structure Resolves (D : Pager) (s s' : State) (a v : Nat) (f : Frame) : Prop where
  valid : ((s.getEntry (v >>> 1)).half (entryloIdx a)).v
  pfn : ((s.getEntry (v >>> 1)).half (entryloIdx a)).pfn = paToPfn (paByPage f)
  accepted : D.Accepts f
  level : s'.lowestLevel = s.lowestLevel
  links : s'.links = raise s.lowestLevel f s.links
  page : s'.page = s.page
  half : ∀ i b, (s'.getEntry i).half b = (s.getEntry i).half b

theorem checkFirst_cases {resolved : Bool} (hc : checkFirst s a v = .ok (s', resolved)) :
    (resolved = false ∧ s' = s) ∨
      (resolved = true ∧ ((s.getEntry (v >>> 1)).half (entryloIdx a)).v = true ∧
        ((s.getEntry (v >>> 1)).half (entryloIdx a)).pfn ≠ 0 ∧
        (s.tlbUpdateBadvaddrEntry (v >>> 1) (s.syncEntryhi (getEntryhi a))
          (s.getEntry (v >>> 1)).lo0 (s.getEntry (v >>> 1)).lo1).promote
            ((s.getEntry (v >>> 1)).half (entryloIdx a)).pfn = .ok s') := by
  change (if ((s.getEntry (v >>> 1)).half (entryloIdx a)).v = false then _ else
    if ((s.getEntry (v >>> 1)).half (entryloIdx a)).pfn = 0 then _ else _) = _ at hc
  split at hc
  · cases hc
    exact .inl ⟨rfl, rfl⟩
  next hvalid =>
    split at hc
    · cases hc
    next hpfn =>
      rw [bind_ok] at hc
      obtain ⟨t, hpromote, hpure⟩ := hc
      cases hpure
      exact .inr ⟨rfl, Bool.eq_true_of_not_eq_false hvalid, hpfn, hpromote⟩

theorem half_tlbUpdateBadvaddrEntry (s : State) (k hi i b : Nat) :
    ((s.tlbUpdateBadvaddrEntry k hi (s.getEntry k).lo0 (s.getEntry k).lo1).getEntry i).half b =
      (s.getEntry i).half b := by
  rw [State.tlbUpdateBadvaddrEntry, State.getEntry_setEntry]
  split
  next hik =>
    rw [State.getEntry, State.getEntry, hik]
    rfl
  next => rfl

theorem Kept.checkFirst_resolves (h : D.Kept s) (hv : v < 2 * D.platform.numTlbEntry)
    (hc : checkFirst s a v = .ok (s', true)) : ∃ f, D.Resolves s s' a v f := by
  obtain ⟨hr, -⟩ | ⟨-, hvalid, hpfn, hpromote⟩ := checkFirst_cases hc
  · cases hr
  obtain ⟨f, hf, hpa⟩ := h.known (v >>> 1) (by rw [shiftRight_one]; omega) _ hpfn
  rw [hpa, State.promote_eq (s := s.tlbUpdateBadvaddrEntry ..) h.queued hf (h.listNum f hf)]
    at hpromote
  cases hpromote
  exact ⟨f, hvalid, hpa, hf, rfl, rfl, rfl, half_tlbUpdateBadvaddrEntry s _ _⟩

theorem checkFirst_false (hc : checkFirst s a v = .ok (s', false)) : s' = s := by
  obtain ⟨-, hs⟩ | ⟨hr, -⟩ := checkFirst_cases hc
  · exact hs
  · cases hr

-- ---------------------------------------------------------------------------
-- No pointer is bad
-- ---------------------------------------------------------------------------

theorem bind_ne_error {α β : Type} {e : Stuck} {x : Except Stuck α} {f : α → Except Stuck β}
    (hx : x ≠ .error e) (hf : ∀ r, x = .ok r → f r ≠ .error e) : x >>= f ≠ .error e := by
  rw [Ne, bind_error]
  rintro (h | ⟨r, hr, h⟩)
  · exact hx h
  · exact hf r hr h

theorem takeVictim_ne_badPointer {frames : Frame → Prop} {s : State} {P : Platform}
    (hq : Queued frames s.links) (hvic : frames vic) (v b : Nat) :
    s.takeVictim P vic v b ≠ .error .badPointer := by
  obtain ⟨hlinks, -, -⟩ := s.evicted_frame vic
  simp only [State.takeVictim]
  split
  · exact fun h => by cases h
  split
  · exact fun h => by cases h
  refine bind_ne_error ?_ fun _ _ h => by cases h
  rw [s.evicted_eq, State.moveToList]
  simp only [State.recordPage, hlinks, if_neg (hq.next_ne_null hvic)]
  exact fun h => by cases h

theorem Kept.checkFirst_ne_badPointer (h : D.Kept s) (hv : v < 2 * D.platform.numTlbEntry) :
    checkFirst s a v ≠ .error .badPointer := by
  change (if ((s.getEntry (v >>> 1)).half (entryloIdx a)).v = false then _ else
    if ((s.getEntry (v >>> 1)).half (entryloIdx a)).pfn = 0 then _ else _) ≠ _
  split
  · exact fun h => by cases h
  split
  · exact fun h => by cases h
  next hpfn =>
    obtain ⟨f, hf, hpa⟩ := h.known (v >>> 1) (by rw [shiftRight_one]; omega) _ hpfn
    refine bind_ne_error ?_ fun _ _ h => by cases h
    change State.promote _ ((s.getEntry (v >>> 1)).half (entryloIdx a)).pfn ≠ _
    rw [hpa, State.promote_eq (s := s.tlbUpdateBadvaddrEntry ..) h.queued hf (h.listNum f hf)]
    exact fun h => by cases h

theorem Kept.vaToPa_ne_badPointer (h : D.Kept s) (hv : v < 2 * D.platform.numTlbEntry) :
    D.vaToPa s a v ≠ .error .badPointer := by
  obtain ⟨f, hf⟩ := D.exists_accepts
  obtain ⟨l, vic, hfind, hvic⟩ := h.queued.findVictim_ok hf s.lowestLevel
  simp only [vaToPa, mmuTlbMissVaToPa]
  split
  · exact fun h => by cases h
  split
  · exact fun h => by cases h
  split
  · exact fun h => by cases h
  rw [hfind, ok_bind]
  refine bind_ne_error (takeVictim_ne_badPointer (s := { s with lowestLevel := l }) h.queued hvic
    v (entryloIdx a)) fun r htake => ?_
  obtain ⟨s₁, inv⟩ := r
  obtain ⟨ht, -⟩ := takeVictim_takes (s := { s with lowestLevel := l }) h.queued hvic htake
  obtain ⟨hq, hzero⟩ := h.takes hvic ht
  dsimp only
  cases D.read v with
  | none => exact fun h => by cases h
  | some data =>
    let s₂ := { s₁ with ram := s₁.ram.copy (vicVa (s₁.page vic).pa) data tlbPageSize }
    have hraise := promoteBuddy_eq (t := s₂) hq hzero (h.known_buddy hv (entryloIdx a))
    refine bind_ne_error ?_ fun _ _ h => by cases h
    exact fun hbad => by cases hraise.symm.trans hbad

theorem Kept.call_ne_badPointer (h : D.Kept s) (hv : c.vpageNum < 2 * D.platform.numTlbEntry) :
    D.call s c ≠ .error .badPointer := by
  unfold Pager.call
  split
  next =>
    have hcheck := h.checkFirst_ne_badPointer (a := c.badvaddr) hv
    cases hr : checkFirst s c.badvaddr c.vpageNum with
    | error e =>
      rw [hr] at hcheck
      exact fun he => hcheck (congrArg Except.error (Except.error.inj he))
    | ok r => exact fun h => by cases h
  next => exact h.vaToPa_ne_badPointer hv

-- ---------------------------------------------------------------------------
-- Runs
-- ---------------------------------------------------------------------------

theorem Resolves.kept (hr : D.Resolves s s' a v f) (h : D.Kept s) : D.Kept s' where
  queued := hr.links ▸ h.queued.raise hr.accepted _
  pa := hr.page ▸ h.pa
  listNum := hr.page ▸ h.listNum
  known i hi b := by
    rw [hr.half]
    exact h.known i hi b

theorem Kept.load (h : D.Kept s) (hl : Loads s s' a v l vic) (hvic : D.Accepts vic)
    (hv : v < 2 * D.platform.numTlbEntry) : D.Kept s' where
  queued := by
    have hmove := h.queued.moveTail hvic (promoLevel2 l)
    rw [hl.links, raiseBuddy]
    split
    next hpfn =>
      obtain ⟨f, hf, hf'⟩ := h.known_buddy hv _ hpfn
      rw [hf', ppageNum_paToPfn]
      exact hmove.raise hf l
    next => exact hmove
  pa f hf := by
    rw [hl.page, (recorded_fields ..).1]
    exact h.pa f hf
  listNum f hf := by
    rw [hl.page, (recorded_fields ..).2]
    exact h.listNum f hf
  known i hi b := by
    rw [hl.half]
    split
    · exact fun _ => ⟨vic, hvic, by rw [h.pa vic hvic]⟩
    · intro hpfn
      rw [State.pfn_evicted] at hpfn ⊢
      exact h.known i hi b hpfn

theorem Kept.call_cases (h : D.Kept s) (hv : c.vpageNum < 2 * D.platform.numTlbEntry)
    (hc : D.call s c = .ok s') : s' = s ∨ (∃ f, D.Resolves s s' c.badvaddr c.vpageNum f) ∨
      ∃ l vic, D.Accepts vic ∧ Loads s s' c.badvaddr c.vpageNum l vic := by
  unfold Pager.call at hc
  split at hc
  next =>
    cases hcheck : checkFirst s c.badvaddr c.vpageNum with
    | error e =>
      rw [hcheck] at hc
      cases hc
    | ok r =>
      obtain ⟨t, resolved⟩ := r
      rw [hcheck] at hc
      cases hc
      cases resolved with
      | true => exact .inr (.inl (h.checkFirst_resolves hv hcheck))
      | false => exact .inl (checkFirst_false hcheck)
  next => exact .inr (.inr (h.vaToPa_loads hv hc))

theorem Kept.call (h : D.Kept s) (hv : c.vpageNum < 2 * D.platform.numTlbEntry)
    (hc : D.call s c = .ok s') : D.Kept s' := by
  rcases h.call_cases hv hc with rfl | ⟨f, hf⟩ | ⟨l, vic, hvic, hl⟩
  · exact h
  · exact hf.kept h
  · exact h.load hl hvic hv

theorem Reached.kept (h : D.Reached s) : D.Kept s := by
  induction h with
  | start => exact D.kept_start
  | call _ hv hc ih => exact ih.call hv hc

theorem Reached.isr (h : D.Reached s) (hm : plrTlbMissIsr D.platform D.read s m = .ok s') :
    D.Reached s' := by
  have hv : m.vpageNum D.platform < 2 * D.platform.numTlbEntry := by
    have hpos := D.platform.numTlbEntry_pos
    have hle : m.vpageNum D.platform ≤ D.platform.numTlbMask := Nat.and_le_right
    rw [Platform.numTlbMask] at hle
    omega
  have hload : ∀ t, D.Reached t → D.vaToPa t m.badvaddr (m.vpageNum D.platform) = .ok s' →
      D.Reached s' := fun t ht hc =>
    ht.call (c := ⟨.vaToPa, m.badvaddr, m.vpageNum D.platform⟩) hv hc
  simp only [plrTlbMissIsr] at hm
  split at hm
  next =>
    rw [bind_ok] at hm
    obtain ⟨⟨t, resolved⟩, hcheck, hm⟩ := hm
    have hstep : D.call s ⟨.checkFirst, m.badvaddr, m.vpageNum D.platform⟩ = .ok t := by
      change (checkFirst s m.badvaddr (m.vpageNum D.platform)).map Prod.fst = _
      rw [show checkFirst s m.badvaddr (m.vpageNum D.platform) = _ from hcheck]
      rfl
    cases resolved with
    | true =>
      cases hm
      exact h.call hv hstep
    | false =>
      obtain rfl := checkFirst_false hcheck
      exact hload t h hm
  next => exact hload s h hm

theorem exists_frames {xs : List Node} (h : ∀ x ∈ xs, ∃ f : Frame, x = .page f) :
    ∃ fs : List Frame, xs = fs.map .page := by
  induction xs with
  | nil => exact ⟨[], rfl⟩
  | cons x xs ih =>
    obtain ⟨f, rfl⟩ := h x List.mem_cons_self
    obtain ⟨fs, rfl⟩ := ih fun y hy => h y (List.mem_cons_of_mem _ hy)
    exact ⟨f :: fs, rfl⟩

theorem Kept.partition (h : D.Kept s) : ∃ lists, D.Partition s lists := by
  obtain ⟨member, hrings, hmem⟩ := h.queued
  have hframes : ∀ l, ∃ fs : List Frame, member l = fs.map .page := by
    intro l
    refine exists_frames fun x hx => ?_
    obtain ⟨f, hf, -⟩ := (hmem x).mp ⟨l, hx⟩
    exact ⟨f, hf⟩
  choose lists hlists using hframes
  have hiff : ∀ l f, f ∈ lists l ↔ Node.page f ∈ member l := by
    intro l f
    rw [hlists l, List.mem_map]
    refine ⟨fun hf => ⟨f, hf, rfl⟩, ?_⟩
    rintro ⟨g, hg, hgf⟩
    cases hgf
    exact hg
  obtain ⟨f₀, hf₀⟩ := D.exists_accepts
  refine ⟨lists, fun l => hlists l ▸ hrings.ring l, fun l => ?_, fun f hf => ?_, fun l f hf => ?_,
    h.queued.findVictim_ok hf₀ s.lowestLevel⟩
  · have hnodup := (hrings.nodup l).of_cons
    rw [hlists l] at hnodup
    exact hnodup.of_map
  · obtain ⟨l, hl⟩ := (hmem (.page f)).mpr ⟨f, rfl, hf⟩
    refine ⟨l, (hiff l f).mpr hl, fun l' hl' => ?_⟩
    by_contra hne
    exact hrings.disjoint l' l hne (List.mem_cons_of_mem _ ((hiff l' f).mp hl'))
      (List.mem_cons_of_mem _ hl)
  · obtain ⟨g, hg, hacc⟩ := (hmem (.page f)).mp ⟨l, (hiff l f).mp hf⟩
    cases hg
    exact hacc

/-- A pager with a state it comes to. -/
structure Session where
  pager : Pager
  state : State
  reached : pager.Reached state

/-- After any sequence of calls the level lists are well formed and partition the frames
`mmu_drv_init` has accepted, the victim search ends, and no further call follows a pointer that
leads nowhere. -/
theorem lists_partition (S : Session) :
    (∃ lists, S.pager.Partition S.state lists) ∧
      ∀ c : Call, c.vpageNum < 2 * S.pager.platform.numTlbEntry →
        S.pager.call S.state c ≠ .error .badPointer :=
  ⟨S.reached.kept.partition, fun _ hv => S.reached.kept.call_ne_badPointer hv⟩

end Pager

end BismarckPreloader.Mmu
