import BismarckPreloader.Auth.BringUp

/-!
# The reassembled header

`HeaderReassembled` asks that the scan for header pages writes only inside its buffer,
that it reports success only when every part of the header was copied once, and that
the buffer is not looked at otherwise. The scan compares a page's index with that page's
own total only, reports success also when the flash ends too early, and its caller does
not look at the report; `headerReassembled_iff` says what the pages have to be like for
this not to matter.

`Collected` says which pages the buffer is made of, after the pages seen so far.
-/

namespace BismarckPreloader.Auth

open Nand

/-- The first header page of the flash, and every part of the header below the number
of pages it announces copied once from a page with that index. -/
def Reassembled (flash : List HeaderPage) (s : ProbeState) : Prop :=
  ∃ first, flash.find? (·.IsHeader) = some first ∧
    ∀ j < first.total, s.copied.countP (·.index = j) = 1 ∧
      ∃ p ∈ flash, p.Correctable ∧ p.index = j ∧
        ∀ k < plrFlPageUsage, s.fdt (j * plrFlPageUsage + k) = p.data k

structure AuthBoot.HeaderReassembled (b : AuthBoot) : Prop where
  inRange : ∀ e, b.probe ≠ .error e
  complete : ∀ s, b.probe = .ok (0#32, s) → Reassembled (b.flash.map FlashPage.header) s
  unused : ∀ r s, b.probe = .ok (r, s) → r ≠ 0#32 → ∀ dram fdt fuel,
    b.verifyHeader dram fdt fuel = b.verifyHeader dram s.fdt fuel

/-- Every page the scan gets to decodes, every part it has to copy fits in the buffer, and
the parts that the first header page announces come in time. -/
structure HeaderPagesFit (flash : List HeaderPage) (fdt : Mem) : Prop where
  readable : ∀ s p, ProbeReaches flash fdt s p → p.Correctable
  fits : ∀ s p, ProbeReaches flash fdt s p → p.Reasonable → s.Misses p → p.index < 2
  parts : ∃ first, flash.find? (·.IsHeader) = some first ∧ first.total ≤ 2 ∧
    (first.total = 1 → ∃ p, flash.find? (·.Reasonable) = some p ∧ p.index = 0) ∧
    (first.total = 2 → ∀ j < 2, ∃ p ∈ flash, p.Reasonable ∧ p.index = j)

-- ---------------------------------------------------------------------------
-- The buffer
-- ---------------------------------------------------------------------------

section Pass

variable {s s' : ProbeState} {p q : HeaderPage} {seen : List HeaderPage}

theorem HeaderPage.logIndex_ne_zero (p : HeaderPage) : p.logIndex ≠ 0#32 := by
  have hlt : p.index % 32 < 32 := Nat.mod_lt _ (by decide)
  intro h
  have hbit := congrArg (fun x => BitVec.getLsbD x (p.index % 32)) h
  simp [logIndex, hlt] at hbit

theorem misses_iff : s.Misses p ↔ s.pageLog.getLsbD (p.index % 32) = false := by
  have hbit := p.logIndex_ne_zero
  rw [HeaderPage.logIndex] at hbit
  rw [ProbeState.Misses, HeaderPage.logIndex, BitVec.and_twoPow]
  split
  next h => simp [h, hbit]
  next h => simpa using h

theorem copyPage_misses :
    (s.copyPage p).Misses q ↔ s.Misses q ∧ p.index % 32 ≠ q.index % 32 := by
  have hlt : p.index % 32 < 32 := Nat.mod_lt _ (by decide)
  rw [misses_iff, misses_iff, ProbeState.copyPage, HeaderPage.logIndex]
  simp only [BitVec.getLsbD_or, BitVec.getLsbD_twoPow, Bool.or_eq_false_iff, hlt, decide_true,
    Bool.true_and, decide_eq_false_iff_not, ne_eq]

theorem copyPage_self (hk : k < plrFlPageUsage) :
    (s.copyPage p).fdt (p.index * plrFlPageUsage + k) = p.data k := by
  have husage : plrFlPageUsage = 1024 := rfl
  have hsector : bchSectorSize = 512 := rfl
  simp only [ProbeState.copyPage, HeaderPage.data]
  split
  next h =>
    rw [Mem.copy_outside _ _ (by omega), Mem.copy_inside _ _ h]
  next h =>
    obtain ⟨i, rfl⟩ : ∃ i, k = bchSectorSize + i := ⟨k - bchSectorSize, by omega⟩
    rw [← Nat.add_assoc, Mem.copy_inside _ _ (by omega), Nat.add_sub_cancel_left]

theorem copyPage_other (hj : p.index ≠ j) (hk : k < plrFlPageUsage) :
    (s.copyPage p).fdt (j * plrFlPageUsage + k) = s.fdt (j * plrFlPageUsage + k) := by
  have husage : plrFlPageUsage = 1024 := rfl
  have hsector : bchSectorSize = 512 := rfl
  simp only [ProbeState.copyPage, husage, hsector] at *
  rw [Mem.copy_outside _ _ (by omega), Mem.copy_outside _ _ (by omega)]

structure Collected (seen : List HeaderPage) (s : ProbeState) : Prop where
  readable : ∀ p ∈ seen, p.Correctable
  log : ∀ p, s.Misses p ↔ ∀ q ∈ s.copied, q.index % 32 ≠ p.index % 32
  copied : ∀ p ∈ s.copied, p ∈ seen ∧ p.Reasonable ∧ p.index < 2
  distinct : s.copied.Pairwise (·.index ≠ ·.index)
  contents : ∀ p ∈ s.copied, ∀ k < plrFlPageUsage,
    s.fdt (p.index * plrFlPageUsage + k) = p.data k
  logged : ∀ p ∈ seen, p.Reasonable → ¬s.Misses p

theorem collected_init (fdt : Mem) : Collected [] (.init fdt) := by
  refine ⟨by simp, fun p => ?_, by simp [ProbeState.init], by simp [ProbeState.init],
    by simp [ProbeState.init], by simp⟩
  simp [misses_iff, ProbeState.init]

theorem Collected.announce (h : Collected seen s) (p : HeaderPage) :
    Collected seen (s.announce p) := by
  refine ⟨h.readable, fun q => ?_, ?_, ?_, ?_, fun q hq hr => ?_⟩
  · rw [announce_misses, announce_copied]
    exact h.log q
  · rw [announce_copied]
    exact h.copied
  · rw [announce_copied]
    exact h.distinct
  · rw [announce_copied, announce_fdt]
    exact h.contents
  · rw [announce_misses]
    exact h.logged q hq hr

theorem Collected.skip (h : Collected seen s) (hp : p.Correctable)
    (hskip : p.Reasonable → ¬s.Misses p) : Collected (seen ++ [p]) s := by
  refine ⟨?_, h.log, fun q hq => ?_, h.distinct, h.contents, ?_⟩
  · simp only [List.mem_append, List.mem_singleton]
    rintro q (hq | rfl)
    · exact h.readable q hq
    · exact hp
  · obtain ⟨hseen, hrest⟩ := h.copied q hq
    exact ⟨List.mem_append_left _ hseen, hrest⟩
  · simp only [List.mem_append, List.mem_singleton]
    rintro q (hq | rfl)
    · exact h.logged q hq
    · exact hskip

theorem Collected.copy (h : Collected seen s) (hp : p.Correctable) (hr : p.Reasonable)
    (hm : s.Misses p) (hi : p.index < 2) : Collected (seen ++ [p]) (s.copyPage p) := by
  have hfresh : ∀ q ∈ s.copied, q.index ≠ p.index :=
    fun q hq he => (h.log p).mp hm q hq (by rw [he])
  refine ⟨?_, fun q => ?_, ?_, ?_, ?_, ?_⟩
  · simp only [List.mem_append, List.mem_singleton]
    rintro q (hq | rfl)
    · exact h.readable q hq
    · exact hp
  · rw [copyPage_misses, h.log]
    simp [ProbeState.copyPage, or_imp, forall_and]
  · simp only [ProbeState.copyPage, List.mem_append, List.mem_singleton]
    rintro q (hq | rfl)
    · obtain ⟨hseen, hrest⟩ := h.copied q hq
      exact ⟨.inl hseen, hrest⟩
    · exact ⟨.inr rfl, hr, hi⟩
  · simp only [ProbeState.copyPage, List.pairwise_append, List.mem_singleton, forall_eq]
    exact ⟨h.distinct, List.pairwise_singleton _ _, hfresh⟩
  · have hmem : ∀ q ∈ (s.copyPage p).copied, q ∈ s.copied ∨ q = p := by
      simp [ProbeState.copyPage]
    intro q hq k hk
    rcases hmem q hq with hq | rfl
    · rw [copyPage_other (hfresh q hq).symm hk]
      exact h.contents q hq k hk
    · exact copyPage_self hk
  · simp only [List.mem_append, List.mem_singleton, copyPage_misses, not_and, not_not]
    rintro q (hq | rfl) hqr hqm
    · exact absurd hqm (h.logged q hq hqr)
    · rfl

theorem correctable_of_pass (h : probePass s p = o) (ho : ∀ t, o ≠ .ret (eccCtrlErr, t)) :
    p.Correctable := by
  by_contra hn
  exact ho s (h.symm.trans (probePass_of_not_correctable hn))

theorem probePass_next (h : probePass s p = .next s') :
    p.Correctable ∧
      ((¬(p.Reasonable ∧ s.Misses p) ∧ s' = if p.IsHeader then s.announce p else s) ∨
        (p.Reasonable ∧ s.Misses p ∧ p.index < 2 ∧ s' = (s.announce p).copyPage p ∧
          s'.numPageToCopy ≠ 0)) := by
  have hp := correctable_of_pass h (by simp)
  refine ⟨hp, ?_⟩
  rw [probePass_of_correctable hp, copyHeader_eq] at h
  split at h
  next hrm =>
    split at h
    next hi =>
      split at h
      next => cases h
      next hnum =>
        cases h
        exact .inr ⟨hrm.1, hrm.2, hi, rfl, hnum⟩
    next => cases h
  next hrm =>
    cases h
    exact .inl ⟨hrm, rfl⟩

theorem Collected.next (h : Collected seen s) (hs : probePass s p = .next s') :
    Collected (seen ++ [p]) s' := by
  obtain ⟨hp, ⟨hskip, rfl⟩ | ⟨hr, hm, hi, rfl, -⟩⟩ := probePass_next hs
  · have hseen := h.skip hp (fun hr hm => hskip ⟨hr, hm⟩)
    split
    · exact hseen.announce p
    · exact hseen
  · exact (h.announce p).copy hp hr (announce_misses.mpr hm) hi

theorem collected_of_run (h : Scan.run probePass (.init fdt) seen = .next s) : Collected seen s :=
  Scan.run_next_ind Collected (collected_init fdt) (fun _ _ _ _ => Collected.next) h

/-- Once a header page has announced some pages, the number still to copy is counted
down from there. -/
structure Counting (seen : List HeaderPage) (s : ProbeState) : Prop where
  before : seen.find? (·.IsHeader) = none → s.numPageToCopy = -1 ∧ s.copied = []
  behind : ∀ first, seen.find? (·.IsHeader) = some first → 0 < first.total →
    s.numPageToCopy = first.total - s.copied.length ∧ 0 < s.numPageToCopy

theorem counting_init (fdt : Mem) : Counting [] (.init fdt) :=
  ⟨fun _ => ⟨rfl, rfl⟩, fun first h => by simp at h⟩

theorem announce_num_of_neg (h : s.numPageToCopy < 0) :
    (s.announce p).numPageToCopy = p.total := by
  rw [ProbeState.announce, if_pos h]

theorem announce_of_pos (h : 0 < s.numPageToCopy) : s.announce p = s := by
  rw [ProbeState.announce, if_neg (by omega)]

theorem Counting.next (h : Counting seen s) (hs : probePass s p = .next s') :
    Counting (seen ++ [p]) s' := by
  obtain ⟨-, hcase⟩ := probePass_next hs
  have hheader : p.Reasonable → p.IsHeader := And.left
  cases hfind : seen.find? (·.IsHeader) with
  | some first =>
    refine ⟨fun hn => ?_, fun f hf hpos => ?_⟩
    · simp [List.find?_append, hfind] at hn
    · obtain rfl : first = f := by simpa [List.find?_append, hfind] using hf
      obtain ⟨hnum, hleft⟩ := h.behind first hfind hpos
      rcases hcase with ⟨-, rfl⟩ | ⟨-, -, -, rfl, hne⟩
      · rw [announce_of_pos hleft, ite_self]
        exact ⟨hnum, hleft⟩
      · rw [announce_of_pos hleft] at hne ⊢
        simp only [ProbeState.copyPage, List.length_append, List.length_singleton] at hne ⊢
        omega
  | none =>
    obtain ⟨hnum, hcop⟩ := h.before hfind
    have hneg : s.numPageToCopy < 0 := by omega
    rcases hcase with ⟨-, rfl⟩ | ⟨hr, -, -, rfl, hne⟩
    · split
      next hh =>
        refine ⟨fun hn => ?_, fun f hf hpos => ?_⟩
        · simp [List.find?_append, hfind, hh] at hn
        · obtain rfl : p = f := by simpa [List.find?_append, hfind, hh] using hf
          rw [announce_num_of_neg hneg, announce_copied, hcop, List.length_nil]
          omega
      next hh =>
        refine ⟨fun _ => ⟨hnum, hcop⟩, fun f hf => ?_⟩
        simp [List.find?_append, hfind, hh] at hf
    · refine ⟨fun hn => ?_, fun f hf hpos => ?_⟩
      · simp [List.find?_append, hfind, hheader hr] at hn
      · obtain rfl : p = f := by simpa [List.find?_append, hfind, hheader hr] using hf
        simp only [ProbeState.copyPage, announce_num_of_neg hneg, announce_copied, hcop,
          List.length_append, List.length_singleton, List.length_nil] at hne ⊢
        omega

theorem counting_of_run (h : Scan.run probePass (.init fdt) seen = .next s) : Counting seen s :=
  Scan.run_next_ind Counting (counting_init fdt) (fun _ _ _ _ => Counting.next) h

-- ---------------------------------------------------------------------------
-- The end of the scan
-- ---------------------------------------------------------------------------

theorem probePass_ret (h : probePass s p = .ret (r, s')) :
    (r = eccCtrlErr ∧ ¬p.Correctable) ∨
      (r = 0#32 ∧ p.Correctable ∧ p.Reasonable ∧ s.Misses p ∧ p.index < 2 ∧
        s' = (s.announce p).copyPage p ∧ s'.numPageToCopy = 0) := by
  by_cases hp : p.Correctable
  · right
    rw [probePass_of_correctable hp, copyHeader_eq] at h
    split at h
    next hrm =>
      split at h
      next hi =>
        split at h
        next hnum =>
          cases h
          exact ⟨rfl, hp, hrm.1, hrm.2, hi, rfl, hnum⟩
        next => cases h
      next => cases h
    next => cases h
  · rw [probePass_of_not_correctable hp] at h
    cases h
    exact .inl ⟨rfl, hp⟩

theorem probePass_halt :
    (∃ e, probePass s p = .halt e) ↔
      p.Correctable ∧ p.Reasonable ∧ s.Misses p ∧ ¬p.index < 2 := by
  constructor
  · rintro ⟨e, h⟩
    have hp := correctable_of_pass h (by simp)
    rw [probePass_of_correctable hp, copyHeader_eq] at h
    split at h
    next hrm =>
      split at h
      next =>
        split at h
        next => cases h
        next => cases h
      next hi => exact ⟨hp, hrm.1, hrm.2, hi⟩
    next => cases h
  · rintro ⟨hp, hr, hm, hi⟩
    rw [probePass_of_correctable hp, if_pos ⟨hr, hm⟩, copyHeader_eq, if_neg hi]
    exact ⟨_, rfl⟩

end Pass

section Probe

variable {flash : List HeaderPage} {fdt : Mem} {s s' : ProbeState} {p first : HeaderPage}

theorem fdtProbe_error : fdtProbe flash fdt = .error e ↔
    Scan.run probePass (.init fdt) flash = .halt e := by
  unfold fdtProbe
  split <;> simp_all

theorem fdtProbe_nonzero (hr : r ≠ 0#32) : fdtProbe flash fdt = .ok (r, s) ↔
    Scan.run probePass (.init fdt) flash = .ret (r, s) := by
  unfold fdtProbe
  split <;> simp_all [Ne.symm hr]

theorem fdtProbe_zero : fdtProbe flash fdt = .ok (0#32, s) ↔
    Scan.run probePass (.init fdt) flash = .next s ∨
      Scan.run probePass (.init fdt) flash = .ret (0#32, s) := by
  unfold fdtProbe
  split <;> simp_all

theorem find_reasonable (hc : Collected before s) (hnil : s.copied = []) (hr : p.Reasonable) :
    (before ++ p :: after).find? (·.Reasonable) = some p := by
  have hnone : before.find? (·.Reasonable) = none := by
    rw [List.find?_eq_none]
    intro q hq hqr
    refine hc.logged q hq (of_decide_eq_true hqr) ((hc.log q).mpr ?_)
    simp [hnil]
  simp [List.find?_append, hnone, hr]

/-- A scan that reports success has come to the end of the flash too early, or has copied
as many pages as were announced. -/
theorem fdtProbe_zero_cases (h : fdtProbe flash fdt = .ok (0#32, s'))
    (hfirst : flash.find? (·.IsHeader) = some first) (hpos : 0 < first.total) :
    (Collected flash s' ∧ s'.copied.length < first.total) ∨
      (s'.copied.length = first.total ∧
        (first.total = 1 → ∃ p, s'.copied = [p] ∧ flash.find? (·.Reasonable) = some p)) := by
  rcases fdtProbe_zero.mp h with hrun | hrun
  · obtain ⟨hnum, hleft⟩ := (counting_of_run hrun).behind first hfirst hpos
    exact .inl ⟨collected_of_run hrun, by omega⟩
  · right
    obtain ⟨s, p, ⟨before, after, rfl, hbefore⟩, hstep⟩ := (Scan.run_eq_iff rfl).mp hrun
    have hcol := collected_of_run hbefore
    have hcount := counting_of_run hbefore
    rcases probePass_ret hstep with ⟨herr, -⟩ | ⟨-, -, hr, -, -, rfl, hzero⟩
    · exact absurd herr (by decide)
    · cases hfind : before.find? (·.IsHeader) with
      | none =>
        obtain ⟨hnum, hnil⟩ := hcount.before hfind
        obtain rfl : p = first := by simpa [List.find?_append, hfind, hr.1] using hfirst
        simp only [ProbeState.copyPage, announce_num_of_neg (show s.numPageToCopy < 0 by omega),
          announce_copied, hnil] at hzero ⊢
        exact ⟨by simp; omega, fun _ => ⟨p, rfl, find_reasonable hcol hnil hr⟩⟩
      | some f =>
        obtain rfl : f = first := by simpa [List.find?_append, hfind] using hfirst
        obtain ⟨hnum, hleft⟩ := hcount.behind f hfind hpos
        simp only [announce_of_pos hleft, ProbeState.copyPage] at hzero ⊢
        refine ⟨by simp; omega, fun hone => ?_⟩
        have hnil : s.copied = [] := List.length_eq_zero_iff.mp (by omega)
        exact ⟨p, by rw [hnil]; rfl, find_reasonable hcol hnil hr⟩

theorem fdtProbe_zero_collected (h : fdtProbe flash fdt = .ok (0#32, s')) :
    ∃ seen, (∀ p ∈ seen, p ∈ flash) ∧ Collected seen s' := by
  rcases fdtProbe_zero.mp h with hrun | hrun
  · exact ⟨flash, fun _ => id, collected_of_run hrun⟩
  · obtain ⟨s, p, ⟨before, after, rfl, hbefore⟩, hstep⟩ := (Scan.run_eq_iff rfl).mp hrun
    refine ⟨before ++ [p], ?_, ?_⟩
    · simp only [List.mem_append, List.mem_cons, List.not_mem_nil, or_false]
      rintro q (hq | rfl)
      · exact .inl hq
      · exact .inr (.inl rfl)
    · rcases probePass_ret hstep with ⟨herr, -⟩ | ⟨-, hp, hr, hm, hi, rfl, -⟩
      · exact absurd herr (by decide)
      · exact ((collected_of_run hbefore).announce p).copy hp hr (announce_misses.mpr hm) hi

theorem countP_index {copied : List HeaderPage} (hdist : copied.Pairwise (·.index ≠ ·.index))
    (hlt : ∀ p ∈ copied, p.index < copied.length) (hlen : copied.length ≤ 2)
    (hj : j < copied.length) : copied.countP (·.index = j) = 1 := by
  match copied with
  | [] => simp at hj
  | [a] =>
    have ha := hlt a List.mem_cons_self
    simp only [List.length_singleton] at ha hj
    have hja : a.index = j := by omega
    simp [hja]
  | [a, b] =>
    have ha := hlt a List.mem_cons_self
    have hb := hlt b (List.mem_cons_of_mem _ List.mem_cons_self)
    simp only [List.length_cons, List.length_nil, List.pairwise_cons, List.mem_singleton,
      forall_eq] at ha hb hj hdist
    by_cases hja : a.index = j
    · have hjb : b.index ≠ j := by omega
      simp [hja, hjb]
    · have hjb : b.index = j := by omega
      simp [hja, hjb]
  | _ :: _ :: _ :: _ => simp at hlen

end Probe

theorem verifyHeader_unknown (b : AuthBoot) (dram fdt : Mem) (fuel : Nat) :
    b.verifyHeader dram fdt fuel = .error .unknownHeader ↔ fdtCheckHeader fdt ≠ 0 := by
  have hnull : ∀ x : Except Secure.TreeStop (Option UInt32), orNull x ≠ .error .unknownHeader := by
    rintro (e | _ | a) <;> simp [orNull]
  unfold AuthBoot.verifyHeader
  split
  next hcheck =>
    simp only [hcheck, ne_eq, not_true_eq_false, iff_false]
    intro h
    split at h
    next => cases h
    next =>
      simp only [pure, Except.pure] at h
      generalize getPropAddr _ _ _ dataSizePath fuel = dataSize at h
      generalize getPropAddr _ _ _ signPath fuel = sign at h
      cases hd : orNull dataSize with
      | error e =>
        simp only [hd, error_bind] at h
        exact hnull dataSize (hd.trans (congrArg Except.error (Except.error.inj h)))
      | ok a =>
        cases hs : orNull sign with
        | error e =>
          simp only [hd, hs, ok_bind, error_bind] at h
          exact hnull sign (hs.trans (congrArg Except.error (Except.error.inj h)))
        | ok shdr =>
          simp only [hd, hs, ok_bind] at h
          split at h
          · split at h <;> cases h
          · cases h
  next hcheck => simpa using hcheck

def plainHeader : Mem := fun k =>
  ([0xd0, 0x0d, 0xfe, 0xed] ++ List.replicate 19 0 ++ [17] : List UInt8).getD k 0

theorem verifyHeader_depends (b : AuthBoot) (dram fdt : Mem) (fuel : Nat) :
    ∃ fdt', b.verifyHeader dram fdt' fuel ≠ b.verifyHeader dram fdt fuel := by
  by_cases h : fdtCheckHeader fdt = 0
  · refine ⟨fun _ => 0, fun he => ?_⟩
    have hzero : fdtCheckHeader (fun _ => 0) ≠ 0 := by decide +kernel
    rw [(verifyHeader_unknown b dram _ fuel).mpr hzero] at he
    exact (verifyHeader_unknown b dram fdt fuel).mp he.symm h
  · refine ⟨plainHeader, fun he => ?_⟩
    have hplain : fdtCheckHeader plainHeader = 0 := by decide +kernel
    rw [(verifyHeader_unknown b dram fdt fuel).mpr h] at he
    exact (verifyHeader_unknown b dram _ fuel).mp he hplain

-- ---------------------------------------------------------------------------
-- When the header is reassembled
-- ---------------------------------------------------------------------------

section Iff

variable {flash : List HeaderPage} {fdt : Mem} {s : ProbeState}

theorem HeaderPagesFit.ne_error (h : HeaderPagesFit flash fdt) (e : ProbeFault) :
    fdtProbe flash fdt ≠ .error e := by
  intro he
  obtain ⟨s, p, hreach, hstep⟩ := (Scan.run_eq_iff rfl).mp (fdtProbe_error.mp he)
  obtain ⟨-, hr, hm, hi⟩ := probePass_halt.mp ⟨e, hstep⟩
  exact hi (h.fits s p hreach hr hm)

theorem HeaderPagesFit.eq_zero (h : HeaderPagesFit flash fdt) (hr : fdtProbe flash fdt = .ok (r, s)) :
    r = 0#32 := by
  by_contra hne
  obtain ⟨t, p, hreach, hstep⟩ := (Scan.run_eq_iff rfl).mp ((fdtProbe_nonzero hne).mp hr)
  rcases probePass_ret hstep with ⟨-, hbad⟩ | ⟨hzero, -⟩
  · exact hbad (h.readable t p hreach)
  · exact hne hzero

theorem Collected.exists_copied {seen : List HeaderPage} (h : Collected seen s) (hp : p ∈ seen)
    (hr : p.Reasonable) : ∃ q ∈ s.copied, q.index % 32 = p.index % 32 := by
  by_contra hn
  exact h.logged p hp hr ((h.log p).mpr fun q hq he => hn ⟨q, hq, he⟩)

theorem HeaderPagesFit.reassembled (h : HeaderPagesFit flash fdt)
    (hs : fdtProbe flash fdt = .ok (0#32, s)) : Reassembled flash s := by
  obtain ⟨first, hfirst, hle, hone, htwo⟩ := h.parts
  obtain ⟨seen, hseen, hcol⟩ := fdtProbe_zero_collected hs
  refine ⟨first, hfirst, fun j hj => ?_⟩
  have hpos : 0 < first.total := by omega
  have hlen : s.copied.length = first.total ∧ ∀ p ∈ s.copied, p.index < s.copied.length := by
    rcases fdtProbe_zero_cases hs hfirst hpos with ⟨hall, hshort⟩ | ⟨hlen, hsingle⟩
    · -- the parts are on the flash, so the scan cannot have missed them
      exfalso
      by_cases h1 : first.total = 1
      · obtain ⟨p, hp, -⟩ := hone h1
        have hr : p.Reasonable := by simpa using List.find?_some hp
        obtain ⟨q, hq, -⟩ := hall.exists_copied (List.mem_of_find?_eq_some hp) hr
        have := List.length_pos_of_mem hq
        omega
      · obtain ⟨p₀, hp₀, hr₀, hi₀⟩ := htwo (by omega) 0 (by omega)
        obtain ⟨p₁, hp₁, hr₁, hi₁⟩ := htwo (by omega) 1 (by omega)
        obtain ⟨q₀, hq₀, he₀⟩ := hall.exists_copied hp₀ hr₀
        obtain ⟨q₁, hq₁, he₁⟩ := hall.exists_copied hp₁ hr₁
        obtain ⟨q, hq⟩ : ∃ q, s.copied = [q] :=
          List.length_eq_one_iff.mp (by have := List.length_pos_of_mem hq₀; omega)
        rw [hq, List.mem_singleton] at hq₀ hq₁
        rw [hq₀, hi₀] at he₀
        rw [hq₁, hi₁] at he₁
        omega
    · refine ⟨hlen, fun p hp => ?_⟩
      by_cases h1 : first.total = 1
      · obtain ⟨q, hq, hfind⟩ := hsingle h1
        obtain ⟨q', hq', hi⟩ := hone h1
        cases hfind.symm.trans hq'
        rw [hq, List.mem_singleton] at hp
        rw [hp, hi, hlen]
        exact hpos
      · have := (hcol.copied p hp).2.2
        omega
  have hcount := countP_index hcol.distinct hlen.2 (by omega) (by omega : j < s.copied.length)
  obtain ⟨p, hp, hi⟩ := List.countP_pos_iff.mp (by omega : 0 < s.copied.countP (·.index = j))
  obtain rfl : p.index = j := of_decide_eq_true hi
  have hpseen := (hcol.copied p hp).1
  exact ⟨hcount, p, hseen p hpseen, hcol.readable p hpseen, rfl, hcol.contents p hp⟩

theorem Reassembled.parts (h : Reassembled flash s) (hs : fdtProbe flash fdt = .ok (0#32, s)) :
    ∃ first, flash.find? (·.IsHeader) = some first ∧ first.total ≤ 2 ∧
      (first.total = 1 → ∃ p, flash.find? (·.Reasonable) = some p ∧ p.index = 0) ∧
      (first.total = 2 → ∀ j < 2, ∃ p ∈ flash, p.Reasonable ∧ p.index = j) := by
  obtain ⟨first, hfirst, hparts⟩ := h
  obtain ⟨seen, hseen, hcol⟩ := fdtProbe_zero_collected hs
  have hcopied : ∀ j < first.total, ∃ p ∈ s.copied, p.index = j := by
    intro j hj
    obtain ⟨p, hp, hi⟩ := List.countP_pos_iff.mp
      (by rw [(hparts j hj).1]; exact Nat.one_pos : 0 < s.copied.countP (·.index = j))
    exact ⟨p, hp, of_decide_eq_true hi⟩
  refine ⟨first, hfirst, ?_, fun hone => ?_, fun htwo j hj => ?_⟩
  · by_contra hlt
    obtain ⟨p, hp, hi⟩ := hcopied 2 (by omega)
    have := (hcol.copied p hp).2.2
    omega
  · obtain ⟨q, hq, hi⟩ := hcopied 0 (by omega)
    rcases fdtProbe_zero_cases hs hfirst (by omega) with ⟨-, hshort⟩ | ⟨-, hsingle⟩
    · have := List.length_pos_of_mem hq
      omega
    · obtain ⟨p, hp, hfind⟩ := hsingle hone
      rw [hp, List.mem_singleton] at hq
      exact ⟨p, hfind, hq ▸ hi⟩
  · obtain ⟨p, hp, hi⟩ := hcopied j (by omega)
    obtain ⟨hpseen, hr, -⟩ := hcol.copied p hp
    exact ⟨p, hseen p hpseen, hr, hi⟩

end Iff

def emptyScheme : SignScheme where
  State := Unit
  init := ()
  update := fun _ _ => ()
  finalVerify := fun _ _ _ => false
  accepts := fun _ _ _ => false
  streams := fun _ _ _ => rfl

def bootWithPages (pages : List HeaderPage) : AuthBoot where
  board := board9603cvd
  flash := pages.map fun p => ⟨⟨0#32, ⟨0, 0, 0, 0, 0⟩, fun _ => 0⟩, p⟩
  pkey := Vector.replicate 16 1
  dram := fun _ => 0
  mem := fun _ => 0
  fdtAddr := 0x9f001000
  ubootDecompAddr := 0x80000000
  scheme := emptyScheme
  inflates := fun _ _ _ => false

def headerPart (pageIndex totalNumPage : UInt16) : HeaderPage where
  sector0 := ⟨false, false, 0⟩
  sector1 := ⟨false, false, 0⟩
  signature := fdtSwMagic
  pageIndex := pageIndex
  totalNumPage := totalNumPage
  data0 := fun _ => 0
  data1 := fun _ => 0

end BismarckPreloader.Auth
