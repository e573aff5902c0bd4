import BismarckPreloader.Nor.Erase
import BismarckPreloader.Nor.Prog
import BismarckPreloader.Nor.Read

/-!
# Requests outside of the NOR flash

`norsf_read`, `norsf_prog` and `norsf_erase` begin with the same test of the end of the
request, in 32 bits. What passes it is sent to the chips as it is.
-/

namespace BismarckPreloader.Nor

open Pieces

/-- A request that does not end in the flash is refused before anything is sent, and what is
sent stays in the chips there are. -/
structure Contained (r : Request) (ret : Nat) (sent : List Command) : Prop where
  refused : r.ni.capacity < r.offset + r.len → ret ≠ 0 ∧ sent = []
  inside : AllInside r.ni sent

def ReadContained (r : Request) : Prop :=
  ∀ b, ∃ o, NorsfRead b r o ∧ Contained r o.ret o.sent

def ProgContained (r : Request) (source : Option Nat) : Prop :=
  ∀ m, ∃ o, NorsfProg m source r o ∧ Contained r o.ret o.sent

def EraseContained (r : Request) (isStrictLen : Bool) : Prop :=
  ∃ o, NorsfErase isStrictLen r o ∧ Contained r o.ret o.sent

theorem contained_of_inside (h : r.offset + r.len ≤ r.ni.capacity) (hs : AllInside r.ni sent) :
    Contained r ret sent :=
  ⟨fun hlt => absurd h (Nat.not_le.mpr hlt), hs⟩

theorem allInside_nil : AllInside ni [] := fun _ h => nomatch h

theorem contained_overflow (r : Request) : Contained r (t4Epilogue lenOverflow) [] :=
  ⟨fun _ => ⟨by decide, rfl⟩, allInside_nil⟩

-- ---------------------------------------------------------------------------
-- Requests that end in the flash
-- ---------------------------------------------------------------------------

section
variable {r : Request}

theorem readContained_of_le (h : r.offset + r.len ≤ r.ni.capacity) : ReadContained r := by
  intro b
  unfold NorsfRead
  split
  · exact ⟨_, rfl, contained_overflow r⟩
  · split
    · exact ⟨_, rfl, contained_of_inside h allInside_nil⟩
    · obtain ⟨s, hs, -, -, hin⟩ := read_loop b r.ni r.offset r.len
      exact ⟨_, ⟨s, hs, rfl⟩, contained_of_inside h (hin h).restore⟩

/-- A request inside of one page is a single command, whatever the size of the chips. -/
theorem prog_one_piece (m : Memory) (source : Option Nat) (hsz : r.ni.sizeBits < 8)
    (hone : r.offset % r.ni.size + r.len ≤ r.ni.size) (hl : 0 < r.len) :
    Loop.Leads (progStep r.ni m source r.len) (transferStart r)
      (.ret (progPass r.ni m source (transferStart r) r.len)) := by
  have hlt : r.ni.size < 256 := Nat.pow_lt_pow_right (by decide) hsz
  have hlen : min r.len (progUnit - r.offset % r.ni.size % progUnit) = r.len := by
    rw [progUnit_eq]
    omega
  have hfirst : progStep r.ni m source r.len (transferStart r) =
      .next (progPass r.ni m source (transferStart r) r.len) := by
    rw [progStep, if_pos (show (transferStart r).pos.doneB < r.len from hl)]
    simp only [transferStart, Nat.sub_zero, hlen]
  refine .head hfirst (.one ?_)
  · have hdone : (posAdvance r.ni (transferStart r).pos r.len).doneB = r.len := by
      unfold posAdvance transferStart
      split
      · exact Nat.zero_add _
      · exact Nat.zero_add _
    rw [progStep, if_neg]
    simp only [progPass, hdone]
    exact Nat.lt_irrefl _

theorem progContained_of_le (h : r.offset + r.len ≤ r.ni.capacity)
    (hsz : 8 ≤ r.ni.sizeBits ∨ r.offset % r.ni.size + r.len ≤ r.ni.size)
    (source : Option Nat) : ProgContained r source := by
  intro m
  unfold NorsfProg
  split
  · exact ⟨_, rfl, contained_overflow r⟩
  · by_cases hb : 8 ≤ r.ni.sizeBits
    · obtain ⟨s, hs, -, hin⟩ := prog_loop r source hb m (fun _ s => AllInside r.ni s.sent)
        allInside_nil (fun g left s hp hl hin => by
          have hsum := hp.sum
          have hcs : g / r.ni.size < r.ni.numChips := chip_lt (by omega)
          rw [hp.sent_eq]
          refine allInside_cons.mpr ⟨⟨hcs, ?_⟩, hin.enable hcs⟩
          rw [length_pieceData]
          exact progPiece_inside hb g left)
      exact ⟨_, ⟨s, hs, rfl⟩, contained_of_inside h hin.restore⟩
    · have hone := hsz.resolve_left hb
      by_cases hl : 0 < r.len
      · have hcs : r.offset / r.ni.size < r.ni.numChips := chip_lt (by omega)
        refine ⟨_, ⟨_, prog_one_piece m source (by omega) hone hl, rfl⟩,
          contained_of_inside h (AllInside.restore ?_)⟩
        refine allInside_cons.mpr ⟨⟨hcs, ?_⟩, allInside_nil.enable hcs⟩
        rw [List.length_map, List.length_range]
        exact hone
      · refine ⟨_, ⟨transferStart r, .one ?_, rfl⟩,
          contained_of_inside h (AllInside.restore allInside_nil)⟩
        rw [progStep, if_neg (by exact hl)]

end

theorem erase_inside {r : DeviceRequest} (hcap : r.offset + r.len ≤ r.ni.capacity)
    (strict : Bool) (h : Erasing r.ni r.offset r.len g left s) (hin : AllInside r.ni s.sent) :
    ∃ s', Loop.Leads (eraseStep r.ni strict r.len) s (.ret s') ∧ AllInside r.ni s'.sent := by
  induction left using Nat.strongRecOn generalizing g s with
  | ind left ih =>
    by_cases hl : 0 < left
    · have hstep := h.step_eq hl strict
      have hleft := h.left_eq
      have hcs : g / r.ni.size < r.ni.numChips := chip_lt (by omega)
      cases hsel : eraseCmdSel r.ni (g % r.ni.size) left with
      | error e =>
        rw [hsel] at hstep
        exact ⟨_, .one hstep, hin⟩
      | ok c =>
        obtain ⟨hc, ha⟩ := eraseCmdSel_ok hsel
        rw [hsel] at hstep
        dsimp only at hstep
        split at hstep
        · exact ⟨_, .one hstep, hin⟩
        · rw [h.pass_eq] at hstep
          have hafter : ∀ pos, AllInside r.ni (afterUnit r.ni g c.sz pos s).sent := fun pos =>
            allInside_cons.mpr ⟨⟨hcs, unit_inside hc ha⟩, hin.enable hcs⟩
          split at hstep
          · exact ⟨_, .one hstep, hafter _⟩
          · rename_i hsz
            have hpos := c.sz_pos
            obtain ⟨s', hlead, hs'⟩ := ih _ (by omega) (h.after hc ha hsz) (hafter _)
            exact ⟨s', .head hstep hlead, hs'⟩
    · have hleft := h.left_eq
      refine ⟨s, .one ?_, hin⟩
      rw [eraseStep, if_neg (by rw [h.pos_eq]; change ¬g - r.offset < r.len; omega)]

theorem eraseContained_of_le {r : DeviceRequest} (h : r.offset + r.len ≤ r.ni.capacity)
    (strict : Bool) : EraseContained r.toRequest strict := by
  unfold EraseContained NorsfErase
  split
  · exact ⟨_, rfl, contained_overflow _⟩
  · obtain ⟨s, hs, hin⟩ := erase_inside h strict (erasing_start r.toRequest) allInside_nil
    exact ⟨_, ⟨s, hs, rfl⟩, contained_of_inside h hin.restore⟩

-- ---------------------------------------------------------------------------
-- Requests that pass the test all the same
-- ---------------------------------------------------------------------------

theorem mem_addrRangeEnable (h : c ∈ sent) : c ∈ (addrRangeEnable ni cs off ua sent).2 :=
  addrRangeEnable_ind (fun t => c ∈ t) h (fun _ => List.mem_cons_of_mem _ h)
    fun _ => List.mem_cons_of_mem _ h

theorem mem_addrRangeRestore (h : c ∈ sent) : c ∈ addrRangeRestore ni sent :=
  addrRangeRestore_ind (fun t => c ∈ t) h (fun _ _ _ _ ht => List.mem_cons_of_mem _ ht)
    fun _ _ _ _ ht => List.mem_cons_of_mem _ ht

section
variable {r : Request}

def firstProg (r : Request) (m : Memory) (source : Option Nat) : Command :=
  .prog (r.offset / r.ni.size) (r.offset % r.ni.size)
    ((List.range (min r.len (progUnit - r.offset % r.ni.size % progUnit))).map fun i =>
      sourceByte r.ni m source [] (0 + i))

theorem firstProg_mem (hl : 0 < r.len)
    (h : Loop.Leads (progStep r.ni m source r.len) (transferStart r) (.ret s)) :
    firstProg r m source ∈ s.sent := by
  obtain ⟨t, hlead, hlast⟩ := h.last rfl
  have hinv : t = transferStart r ∨ firstProg r m source ∈ t.sent := by
    refine hlead.inv (fun t => t = transferStart r ∨ firstProg r m source ∈ t.sent) (.inl rfl) ?_
    intro t t' ht hstep
    unfold progStep at hstep
    split at hstep
    · cases hstep
      rcases ht with rfl | ht
      · exact .inr List.mem_cons_self
      · exact .inr (List.mem_cons_of_mem _ (mem_addrRangeEnable ht))
    · cases hstep
  unfold progStep at hlast
  split at hlast
  · cases hlast
  · rename_i hdone
    cases hlast
    rcases hinv with rfl | hmem
    · exact absurd hl hdone
    · exact hmem

theorem ProgContained.firstProg_inside (h : ProgContained r source)
    (ho : overflows r.ni r.offset r.len = false) (hl : 0 < r.len) :
    r.offset + r.len ≤ r.ni.capacity ∧
      ∀ m, Inside r.ni (firstProg r m source) := by
  have hrun : ∀ m, ∃ o : TransferResult, Contained r o.ret o.sent ∧
      firstProg r m source ∈ o.sent := by
    intro m
    obtain ⟨o, ho', hc⟩ := h m
    simp only [NorsfProg, ho, Bool.false_eq_true, ↓reduceIte] at ho'
    obtain ⟨s, hs, rfl⟩ := ho'
    exact ⟨_, hc, mem_addrRangeRestore (firstProg_mem hl hs)⟩
  constructor
  · by_contra hcap
    obtain ⟨o, hc, hmem⟩ := hrun ⟨fun _ => 0, fun _ => 0, fun _ => 0⟩
    rw [(hc.refused (Nat.lt_of_not_le hcap)).2] at hmem
    cases hmem
  · intro m
    obtain ⟨o, hc, hmem⟩ := hrun m
    exact hc.inside _ hmem

theorem le_capacity_of_empty (ho : overflows r.ni r.offset r.len = false) (hl : r.len = 0) :
    r.offset + r.len ≤ r.ni.capacity := by
  have hlt := r.offset_lt
  have hmod := Nat.mod_le (r.ni.size * r.ni.numChips) (2 ^ 32)
  simp only [overflows, u32, gt_iff_lt, decide_eq_false_iff_not, Nat.not_lt, hl,
    Nat.add_zero, Nat.mod_eq_of_lt hlt] at ho
  rw [hl, Nat.add_zero, Info.capacity]
  omega

end

def RefusesOutside (r : Request) (source : Option Nat) (isStrictLen : Bool) : Prop :=
  ReadContained r ∧ ProgContained r source ∧ EraseContained r isStrictLen

/-- The 32-bit test refuses the request, or it ends in the flash also without a wrap and its
pages are not longer than a chip. -/
def Containable (r : Request) : Prop :=
  overflows r.ni r.offset r.len = true ∨
    (r.offset + r.len ≤ r.ni.capacity ∧
      (8 ≤ r.ni.sizeBits ∨ r.offset % r.ni.size + r.len ≤ r.ni.size))

theorem containable_of_progContained {r : Request} (h : ProgContained r source) :
    Containable r := by
  by_cases ho : overflows r.ni r.offset r.len = true
  · exact .inl ho
  · have ho : overflows r.ni r.offset r.len = false := by simpa using ho
    refine .inr ?_
    by_cases hl : 0 < r.len
    · obtain ⟨hcap, hin⟩ := h.firstProg_inside ho hl
      refine ⟨hcap, ?_⟩
      by_cases hsz : 8 ≤ r.ni.sizeBits
      · exact .inl hsz
      · have hlt : r.ni.size < 256 :=
          Nat.pow_lt_pow_right (by decide) (Nat.lt_of_not_le hsz)
        have hmod := Nat.mod_lt r.offset r.ni.size_pos
        have hin := (hin ⟨fun _ => 0, fun _ => 0, fun _ => 0⟩).2
        rw [List.length_map, List.length_range, progUnit_eq] at hin
        exact .inr (by omega)
    · have hl : r.len = 0 := by omega
      refine ⟨le_capacity_of_empty ho hl, .inr ?_⟩
      rw [hl]
      exact Nat.le_of_lt (Nat.mod_lt _ r.ni.size_pos)

theorem norsf_refuses_outside_iff (r : DeviceRequest) (source : Option Nat)
    (isStrictLen : Bool) :
    RefusesOutside r.toRequest source isStrictLen ↔ Containable r.toRequest := by
  constructor
  · rintro ⟨-, h, -⟩
    exact containable_of_progContained h
  · rintro (ho | ⟨hcap, hsz⟩)
    · refine ⟨fun b => ?_, fun m => ?_, ?_⟩
      · exact ⟨_, by rw [NorsfRead, if_pos ho], contained_overflow _⟩
      · exact ⟨_, by rw [NorsfProg, if_pos ho], contained_overflow _⟩
      · exact ⟨_, by rw [NorsfErase, if_pos ho], contained_overflow _⟩
    · exact ⟨readContained_of_le hcap, progContained_of_le hcap hsz source,
        eraseContained_of_le hcap isStrictLen⟩

def lastByte : Request where
  ni := commonChip
  offset := 2 ^ 32 - 1
  len := 1
  offset_lt := by decide
  len_lt := by decide

/-- The end of the request wraps to 0 and passes the test. -/
theorem norsf_accepts_last_byte : ¬RefusesOutside lastByte none true := by
  rintro ⟨-, h, -⟩
  have hcap : lastByte.offset + lastByte.len ≤ commonChip.capacity :=
    (h.firstProg_inside (by decide) (by decide)).1
  exact absurd hcap (by decide)

end BismarckPreloader.Nor
