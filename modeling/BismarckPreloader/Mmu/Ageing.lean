import BismarckPreloader.Mmu.Lists

/-!
# Ageing of the frames

A frame in use is to move up one level each time it is referenced again. The level it moves
to is computed from `list_num`, which `mmu_drv_init` sets to 0 and which moving a frame does
not change. So a frame that is referenced again goes to level 1, wherever it is linked.
-/

namespace BismarckPreloader.Mmu

def OnLevel (k : Links Node) (l : Level) (f : Frame) : Prop :=
  ∃ n, k.next^[n] (.level l) = .page f

def AtTail (k : Links Node) (l : Level) (f : Frame) : Prop :=
  OnLevel k l f ∧ k.prev (.level l) = .page f

namespace Pager

/-- Re-references of a resident page: a miss that only needs the entry written back, and a load
next to a half-entry that is valid before and after it. -/
inductive Rereferences (D : Pager) : State → Frame → State → Prop
  | checked (hs : D.Reached s) (hv : v < 2 * D.platform.numTlbEntry)
      (hc : checkFirst s a v = .ok (s', true)) :
      Rereferences D s (ppageNum ((s.getEntry (v >>> 1)).half (entryloIdx a)).pfn) s'
  | buddy (hs : D.Reached s) (hv : v < 2 * D.platform.numTlbEntry)
      (hc : D.vaToPa s a v = .ok s')
      (hvalid : ((s.getEntry (v >>> 1)).buddy (entryloIdx a)).v)
      (hstill : ((s'.getEntry (v >>> 1)).buddy (entryloIdx a)).v) :
      Rereferences D s (ppageNum ((s.getEntry (v >>> 1)).buddy (entryloIdx a)).pfn) s'

structure Rereference where
  pager : Pager
  before : State
  frame : Frame
  after : State
  happens : pager.Rereferences before frame after

def Rereference.FollowsLevel (R : Rereference) : Prop :=
  ∀ k : Level, OnLevel R.before.links k R.frame →
    if promoLevel k ≠ R.after.lowestLevel then AtTail R.after.links (promoLevel k) R.frame
    else OnLevel R.after.links k R.frame

end Pager

section Levels

variable {k : Links Node} {member : Level → List Node} {f : Frame}

theorem onLevel_iff (h : k.Rings .level member) (l : Level) (f : Frame) :
    OnLevel k l f ↔ Node.page f ∈ member l := by
  constructor
  · rintro ⟨n, hn⟩
    have hmem := h.iterate_mem l n
    rw [hn, List.mem_cons] at hmem
    rcases hmem with hlevel | hmem
    · cases hlevel
    · exact hmem
  · exact Links.Path.exists_iterate (h.ring l)

theorem Queued.exists_level {frames : Frame → Prop} (h : Queued frames k) (hf : frames f) :
    ∃ l₀, ∀ l, OnLevel k l f ↔ l = l₀ := by
  obtain ⟨member, hrings, hmem⟩ := h
  obtain ⟨l₀, hl₀⟩ := (hmem (.page f)).mpr ⟨f, rfl, hf⟩
  refine ⟨l₀, fun l => ?_⟩
  rw [onLevel_iff hrings]
  constructor
  · intro hl
    by_contra hne
    exact hrings.disjoint l l₀ hne (List.mem_cons_of_mem _ hl) (List.mem_cons_of_mem _ hl₀)
  · rintro rfl
    exact hl₀

theorem Queued.onLevel_moveTail {frames : Frame → Prop} (h : Queued frames k) (hf : frames f)
    (l₁ l : Level) : OnLevel (k.moveTail (.level l₁) (.page f)) l f ↔ l = l₁ := by
  obtain ⟨member, hrings, hmem⟩ := h
  obtain ⟨l₀, hl₀⟩ := (hmem (.page f)).mpr ⟨f, rfl, hf⟩
  rw [onLevel_iff (hrings.moveTail hl₀ l₁), hrings.mem_moveMember_self]

theorem Queued.onLevel_moveTail_ne {frames : Frame → Prop} (h : Queued frames k) (hg : frames g)
    (hne : f ≠ g) (l₁ l : Level) :
    OnLevel (k.moveTail (.level l₁) (.page g)) l f ↔ OnLevel k l f := by
  obtain ⟨member, hrings, hmem⟩ := h
  obtain ⟨l₀, hl₀⟩ := (hmem (.page g)).mpr ⟨g, rfl, hg⟩
  have hpage : Node.page f ≠ Node.page g := fun he => hne (Node.page.inj he)
  rw [onLevel_iff (hrings.moveTail hl₀ l₁), onLevel_iff hrings,
    Links.mem_moveMember_of_ne hpage]

end Levels

-- ---------------------------------------------------------------------------
-- Valid half-entries and the records of their frames
-- ---------------------------------------------------------------------------

namespace Pager

variable {D : Pager} {s s' : State}

structure Owner (D : Pager) (s : State) (i b : Nat) (f : Frame) : Prop where
  accepted : D.Accepts f
  pfn : ((s.getEntry i).half b).pfn = paToPfn (paByPage f)
  used : (s.page f).vpageNum ≠ psvaFree
  entry : ((s.page f).vpageNum >>> 1) % 64 = i % 64
  side : ((s.page f).entLoIdx ≠ 0) = (b ≠ 0)

def Owned (D : Pager) (s : State) : Prop :=
  ∀ i < D.platform.numTlbEntry, ∀ b, ((s.getEntry i).half b).v → ∃ f, D.Owner s i b f

theorem Owner.evicted (ho : D.Owner s i b f)
    (hv : (((s.evicted vic).getEntry i).half b).v) : f ≠ vic := by
  rintro rfl
  rw [State.evicted, if_pos ho.used, State.half_invalidated,
    if_pos ⟨ho.entry.symm, ho.side.symm⟩] at hv
  cases hv

theorem valid_of_evicted (hv : (((s.evicted vic).getEntry i).half b).v) :
    ((s.getEntry i).half b).v := by
  unfold State.evicted at hv
  split at hv
  · rw [State.half_invalidated] at hv
    split at hv
    · cases hv
    · exact hv
  · exact hv

theorem Owned.resolve (h : D.Owned s) (hr : D.Resolves s s' a v f) : D.Owned s' := by
  intro i hi b hvalid
  rw [hr.half] at hvalid
  obtain ⟨g, hg⟩ := h i hi b hvalid
  exact ⟨g, hg.accepted, by rw [hr.half, hg.pfn], hr.page ▸ hg.used, hr.page ▸ hg.entry,
    hr.page ▸ hg.side⟩

theorem Owned.load (h : D.Owned s) (hk : D.Kept s) (hl : Loads s s' a v l vic)
    (hvic : D.Accepts vic) (hv : v < 2 * D.platform.numTlbEntry) : D.Owned s' := by
  have hle := D.platform.numTlbEntry_le
  intro i hi b hvalid
  rw [hl.half] at hvalid
  split at hvalid
  next hnew =>
    have hself : s'.page vic = { s.page vic with vpageNum := v, entLoIdx := entryloIdx a } := by
      rw [hl.page, Function.update_self]
    refine ⟨vic, hvic, ?_, ?_, ?_, ?_⟩
    · rw [hl.half, if_pos hnew, hk.pa vic hvic]
    · rw [hself, psvaFree]
      simp only
      omega
    · rw [hself]
      exact hnew.1.symm
    · rw [hself]
      exact hnew.2.symm
  next hold =>
    obtain ⟨f, hf⟩ := h i hi b (valid_of_evicted hvalid)
    have hpage : s'.page f = s.page f := by
      rw [hl.page, Function.update_of_ne (hf.evicted hvalid)]
    refine ⟨f, hf.accepted, ?_, hpage ▸ hf.used, hpage ▸ hf.entry, hpage ▸ hf.side⟩
    rw [hl.half, if_neg hold, State.pfn_evicted, hf.pfn]

theorem Reached.owned (h : D.Reached s) : D.Owned s := by
  induction h with
  | start =>
    intro i hi b hvalid
    rw [D.half_start hi] at hvalid
    cases hvalid
  | call hs hv hc ih =>
    rcases hs.kept.call_cases hv hc with rfl | ⟨f, hf⟩ | ⟨l, vic, hvic, hl⟩
    · exact ih
    · exact ih.resolve hf
    · exact ih.load hs.kept hl hvic hv

-- ---------------------------------------------------------------------------
-- Promotion
-- ---------------------------------------------------------------------------

theorem Rereferences.promotes (h : D.Rereferences s f s') :
    D.Accepts f ∧ Queued D.Accepts s.links ∧ ∃ k, Queued D.Accepts k ∧
      (∀ l, OnLevel k l f ↔ OnLevel s.links l f) ∧ s'.links = raise s'.lowestLevel f k := by
  cases h with
  | checked hs hv hc =>
    obtain ⟨g, hg⟩ := hs.kept.checkFirst_resolves hv hc
    rw [hg.pfn, ppageNum_paToPfn]
    exact ⟨hg.accepted, hs.kept.queued, s.links, hs.kept.queued, fun _ => Iff.rfl,
      hg.level ▸ hg.links⟩
  | @buddy v a _ hs hv hc hvalid hstill =>
    obtain ⟨l, vic, hvic, hl⟩ := hs.kept.vaToPa_loads hv hc
    have hq := hs.kept.queued
    have hi : v >>> 1 < D.platform.numTlbEntry := by
      rw [shiftRight_one]
      omega
    rw [TlbEntry.buddy_eq] at hvalid hstill
    obtain ⟨g, hg⟩ := hs.owned _ hi _ hvalid
    have hside : ¬((if entryloIdx a ≠ 0 then 0 else 1) ≠ 0) = (entryloIdx a ≠ 0) := by
      by_cases ha : entryloIdx a = 0 <;> simp [ha]
    rw [hl.half, if_neg fun h => hside h.2] at hstill
    have hne : g ≠ vic := hg.evicted hstill
    have hlinks := hl.links
    rw [TlbEntry.buddy_eq, raiseBuddy, hg.pfn, if_pos (paToPfn_ne_zero g), ppageNum_paToPfn,
      ← hl.level] at hlinks
    rw [TlbEntry.buddy_eq, hg.pfn, ppageNum_paToPfn]
    exact ⟨hg.accepted, hq, _, hq.moveTail hvic _, hq.onLevel_moveTail_ne hvic hne _, hlinks⟩

theorem onLevel_raise {frames : Frame → Prop} {k : Links Node} (hq : Queued frames k)
    (hf : frames f) (hk : ∀ l, OnLevel k l f ↔ l = l₀) (lowest l : Level) :
    OnLevel (raise lowest f k) l f ↔ l = if promoLevel 0 ≠ lowest then promoLevel 0 else l₀ := by
  unfold raise
  split
  · exact hq.onLevel_moveTail hf _ l
  · exact hk l

theorem atTail_raise {frames : Frame → Prop} {k : Links Node} (hq : Queued frames k)
    (hf : frames f) (hlow : promoLevel 0 ≠ lowest) : AtTail (raise lowest f k) (promoLevel 0) f := by
  rw [raise, if_pos hlow]
  exact ⟨(hq.onLevel_moveTail hf _ _).mpr rfl, Links.moveTail_prev _ _ _⟩

theorem promoLevel_ne : ∀ l : Level, promoLevel l ≠ l := by decide

theorem promoLevel_cases : ∀ k low : Level,
    (if promoLevel k ≠ low then promoLevel 0 ≠ low ∧ promoLevel k = promoLevel 0
      else k = if promoLevel 0 ≠ low then promoLevel 0 else k) ↔ k = 0 ∨ k = 1 ∧ low = 2 := by
  decide

/-- A re-reference follows the level exactly if the frame is on level 0, or on level 1 with
level 2 as the lowest. -/
theorem followsLevel_iff (R : Rereference) : R.FollowsLevel ↔
    OnLevel R.before.links 0 R.frame ∨
      (OnLevel R.before.links 1 R.frame ∧ R.after.lowestLevel = 2) := by
  obtain ⟨hf, hq, k, hqk, hsame, hlinks⟩ := R.happens.promotes
  obtain ⟨l₀, hl₀⟩ := hq.exists_level hf
  have hk : ∀ l, OnLevel k l R.frame ↔ l = l₀ := fun l => (hsame l).trans (hl₀ l)
  have hafter := onLevel_raise hqk hf hk R.after.lowestLevel
  have htail : AtTail (raise R.after.lowestLevel R.frame k) (promoLevel l₀) R.frame ↔
      promoLevel 0 ≠ R.after.lowestLevel ∧ promoLevel l₀ = promoLevel 0 := by
    constructor
    · intro h
      have hlevel := (hafter _).mp h.1
      split at hlevel
      next hlow => exact ⟨hlow, hlevel⟩
      next => exact absurd hlevel (promoLevel_ne l₀)
    · rintro ⟨hlow, hlevel⟩
      rw [hlevel]
      exact atTail_raise hqk hf hlow
  have hcases := promoLevel_cases l₀ R.after.lowestLevel
  rw [← hlinks] at hafter htail
  simp only [Rereference.FollowsLevel, hl₀, forall_eq, htail, hafter]
  rw [hcases, eq_comm (a := (0 : Level)), eq_comm (a := (1 : Level))]

theorem accepts9603cvd : 0 < (mmuDrvInit platform9603cvd 0x9f004000 0x9f008000
    ⟨⟨id, id⟩, fun _ => ⟨0, 0, 0, 0⟩, 0, 0, fun _ => ⟨0, ⟨0, false⟩, ⟨0, false⟩⟩,
      fun _ => 0xff⟩).2 := Nat.succ_pos 3

def pager9603cvd : Pager where
  platform := platform9603cvd
  phyStart := 0x9f004000
  phyEnd := 0x9f008000
  links := ⟨id, id⟩
  page _ := ⟨0, 0, 0, 0⟩
  tlb _ := ⟨0, ⟨0, false⟩, ⟨0, false⟩⟩
  ram _ := 0xff
  read n := some fun _ => UInt8.ofNat n
  accepts := accepts9603cvd

def stateAfter (s : State) (r : Except Stuck State) : State :=
  match r with
  | .ok s' => s'
  | .error _ => s

def loaded : State :=
  stateAfter pager9603cvd.start (pager9603cvd.vaToPa pager9603cvd.start mmuVmBaseAddr 0)

def checkedAgain : State :=
  stateAfter loaded ((checkFirst loaded mmuVmBaseAddr 0).map Prod.fst)

/-- The first page that is loaded is on level 2; its next reference takes it down to level 1
and not up to level 3. -/
theorem not_followsLevel_checkedAgain : ∃ R : Rereference, R.before = loaded ∧
    R.after = checkedAgain ∧ OnLevel R.before.links 2 R.frame ∧
    AtTail R.after.links 1 R.frame ∧ ¬R.FollowsLevel := by
  have hload : pager9603cvd.vaToPa pager9603cvd.start mmuVmBaseAddr 0 = .ok loaded := rfl
  have hcheck : checkFirst loaded mmuVmBaseAddr 0 = .ok (checkedAgain, true) := rfl
  have hpos : 0 < 2 * pager9603cvd.platform.numTlbEntry := by decide
  have hreached : pager9603cvd.Reached loaded :=
    .call (c := ⟨.vaToPa, mmuVmBaseAddr, 0⟩) .start hpos hload
  refine ⟨⟨pager9603cvd, loaded, 4, checkedAgain, .checked hreached hpos hcheck⟩, rfl, rfl,
    ⟨1, rfl⟩, ⟨⟨1, rfl⟩, rfl⟩, fun h => ?_⟩
  have hthree : AtTail checkedAgain.links 3 4 := h 2 ⟨1, rfl⟩
  have hempty : checkedAgain.links.prev (.level 3) = .level 3 := rfl
  cases hempty.symm.trans hthree.2

end Pager

end BismarckPreloader.Mmu
