import Mathlib.Data.Nat.Bitwise
import BismarckPreloader.Nor.Device

/-!
# Erasing the NOR flash

Model of `norsf_erase_cmd_sel` and `norsf_erase`. The table of erase commands is gone
through from the largest unit to the smallest, and the first one that begins at the place
and fits is taken. Some units are only there at the beginning or at the end of a chip. The
address of a unit is sent as that of a transfer is: with 3 bytes of it a unit behind the first
16 MB of its chip is taken for one in front of them.
-/

namespace BismarckPreloader.Nor

open Pieces

def EraseCmd.sz (c : EraseCmd) : Nat := 2 ^ c.szBits

theorem EraseCmd.sz_pos (c : EraseCmd) : 0 < c.sz := Nat.two_pow_pos _

-- ---------------------------------------------------------------------------
-- The choice of a command
-- ---------------------------------------------------------------------------

def offsetNalign : Int := -31
def lenNalign : Int := -32
def unknown : Int := -34

/-- The test of `norsf_erase_cmd_sel` for the region of a command: the bit of the chip size
in the difference of the offset and the limit. -/
def regionTest (ni : Info) (c : EraseCmd) (offset : Nat) : Bool :=
  let offsetLmt : Int := if c.offsetLmt = 0 then ni.size else c.offsetLmt
  ((((offset : Int) - offsetLmt) % 2 ^ 32).toNat &&& ni.size) != 0

/-- `norsf_erase_cmd_sel` from some command of the table on, `res` being what it has found
so far. -/
def eraseCmdSelFrom (ni : Info) (offset len : Nat) (res : Except Int EraseCmd) :
    List EraseCmd → Except Int EraseCmd
  | [] => res
  | c :: cmds =>
    if regionTest ni c offset then
      if offset % c.sz = 0 then
        if len ≥ c.sz then .ok c else eraseCmdSelFrom ni offset len (.ok c) cmds
      else eraseCmdSelFrom ni offset len (.error offsetNalign) cmds
    else eraseCmdSelFrom ni offset len res cmds

/-- `norsf_erase_cmd_sel`: a command, or what is wrong. -/
def eraseCmdSel (ni : Info) (offset len : Nat) : Except Int EraseCmd :=
  eraseCmdSelFrom ni offset len (.error unknown) ni.cerase

/-- The limit of a command is counted from the beginning of the chip, or from its end if it
is negative. -/
def InRegion (ni : Info) (c : EraseCmd) (offset : Nat) : Prop :=
  c.offsetLmt = 0 ∨ (0 < c.offsetLmt ∧ (offset : Int) < c.offsetLmt) ∨
    (c.offsetLmt < 0 ∧ (ni.size : Int) + c.offsetLmt ≤ offset)

theorem and_size_ne_zero (ni : Info) (v : Nat) :
    ((v &&& ni.size) != 0) = decide (v / ni.size % 2 = 1) := by
  rw [Info.size, Nat.and_two_pow, ← Nat.testBit_eq_decide_div_mod_eq]
  cases v.testBit ni.sizeBits with
  | false => simp
  | true => simp

theorem size_mul_even (ni : Info) : ∃ j, 0 < j ∧ 2 ^ 32 = ni.size * (2 * j) := by
  refine ⟨2 ^ (31 - ni.sizeBits), Nat.two_pow_pos _, ?_⟩
  have := ni.sizeBits_lt
  rw [Info.size, ← Nat.pow_succ', ← Nat.pow_add]
  congr 1
  omega

theorem size_div_eq {ni : Info} (h : v = ni.size * a + b) (hb : b < ni.size) :
    v / ni.size = a := by
  rw [h, Nat.mul_add_div ni.size_pos, Nat.div_eq_of_lt hb, Nat.add_zero]

theorem regionTest_iff {ni : Info} {c : EraseCmd} (hl : c.offsetLmt.natAbs ≤ ni.size)
    (ho : offset < ni.size) : regionTest ni c offset = true ↔ InRegion ni c offset := by
  have hs := ni.size_le
  obtain ⟨j, hj, hk⟩ := size_mul_even ni
  have hodd : ni.size * (2 * j - 1) = 2 ^ 32 - ni.size := by
    rw [Nat.mul_sub_one, ← hk]
  unfold regionTest InRegion
  dsimp only
  rw [and_size_ne_zero, decide_eq_true_iff]
  by_cases h0 : c.offsetLmt = 0
  · rw [if_pos h0, size_div_eq (a := 2 * j - 1) (b := offset) (by omega) ho]
    omega
  · rw [if_neg h0]
    by_cases hneg : c.offsetLmt < 0
    · by_cases hin : (ni.size : Int) + c.offsetLmt ≤ offset
      · rw [size_div_eq (a := 1) (b := offset + c.offsetLmt.natAbs - ni.size)
          (by omega) (by omega)]
        omega
      · rw [size_div_eq (a := 0) (b := offset + c.offsetLmt.natAbs) (by omega) (by omega)]
        omega
    · by_cases hin : (offset : Int) < c.offsetLmt
      · rw [size_div_eq (a := 2 * j - 1) (b := ni.size - (c.offsetLmt.natAbs - offset))
          (by omega) (by omega)]
        omega
      · rw [size_div_eq (a := 0) (b := offset - c.offsetLmt.natAbs) (by omega) (by omega)]
        omega

structure Available (ni : Info) (c : EraseCmd) (offset : Nat) : Prop where
  region : InRegion ni c offset
  aligned : c.sz ∣ offset

def fits (ni : Info) (offset len : Nat) (c : EraseCmd) : Bool :=
  regionTest ni c offset && decide (c.sz ∣ offset) && decide (c.sz ≤ len)

theorem eraseCmdSelFrom_of_find (h : cmds.find? (fits ni offset len) = some c) :
    eraseCmdSelFrom ni offset len res cmds = .ok c := by
  induction cmds generalizing res with
  | nil => cases h
  | cons d cmds ih =>
    rw [List.find?_cons] at h
    unfold eraseCmdSelFrom
    cases hf : fits ni offset len d with
    | true =>
      rw [hf] at h
      cases h
      simp only [fits, Bool.and_eq_true, decide_eq_true_eq] at hf
      rw [if_pos hf.1.1, if_pos (Nat.mod_eq_zero_of_dvd hf.1.2), if_pos hf.2]
    | false =>
      rw [hf] at h
      split
      · rename_i hr
        split
        · rename_i ha
          rw [if_neg fun hle => ?_, ih h]
          simp only [fits, hr, Nat.dvd_of_mod_eq_zero ha, decide_true, Bool.true_and,
            decide_eq_false_iff_not] at hf
          exact hf hle
        · exact ih h
      · exact ih h

/-- What is found where no command fits: what was found before, a command that is too large,
or none. -/
theorem eraseCmdSelFrom_of_none (res : Except Int EraseCmd)
    (h : cmds.find? (fits ni offset len) = none) :
    eraseCmdSelFrom ni offset len res cmds = res ∨
      (∃ c ∈ cmds, regionTest ni c offset = true ∧ c.sz ∣ offset ∧ len < c.sz ∧
        eraseCmdSelFrom ni offset len res cmds = .ok c) ∨
      eraseCmdSelFrom ni offset len res cmds = .error offsetNalign := by
  induction cmds generalizing res with
  | nil => exact .inl rfl
  | cons d cmds ih =>
    rw [List.find?_cons] at h
    cases hf : fits ni offset len d with
    | true =>
      rw [hf] at h
      cases h
    | false =>
      rw [hf] at h
      unfold eraseCmdSelFrom
      split
      · rename_i hr
        split
        · rename_i ha
          have ha := Nat.dvd_of_mod_eq_zero ha
          have hlt : ¬len ≥ d.sz := by
            simpa only [fits, hr, ha, decide_true, Bool.true_and,
              decide_eq_false_iff_not] using hf
          rw [if_neg hlt]
          rcases ih (.ok d) h with he | ⟨c, hc, hrest⟩ | he
          · exact .inr (.inl ⟨d, List.mem_cons_self, hr, ha, Nat.lt_of_not_le hlt, he⟩)
          · exact .inr (.inl ⟨c, List.mem_cons_of_mem _ hc, hrest⟩)
          · exact .inr (.inr he)
        · rcases ih (.error offsetNalign) h with he | ⟨c, hc, hrest⟩ | he
          · exact .inr (.inr he)
          · exact .inr (.inl ⟨c, List.mem_cons_of_mem _ hc, hrest⟩)
          · exact .inr (.inr he)
      · rcases ih res h with he | ⟨c, hc, hrest⟩ | he
        · exact .inl he
        · exact .inr (.inl ⟨c, List.mem_cons_of_mem _ hc, hrest⟩)
        · exact .inr (.inr he)

theorem eraseCmdSelFrom_ok (h : eraseCmdSelFrom ni offset len res cmds = .ok c) :
    res = .ok c ∨ (c ∈ cmds ∧ c.sz ∣ offset) := by
  induction cmds generalizing res with
  | nil => exact .inl h
  | cons d cmds ih =>
    unfold eraseCmdSelFrom at h
    split at h
    · split at h
      · rename_i ha
        have ha := Nat.dvd_of_mod_eq_zero ha
        split at h
        · cases h
          exact .inr ⟨List.mem_cons_self, ha⟩
        · rcases ih h with he | ⟨hc, hd⟩
          · cases he
            exact .inr ⟨List.mem_cons_self, ha⟩
          · exact .inr ⟨List.mem_cons_of_mem _ hc, hd⟩
      · rcases ih h with he | ⟨hc, hd⟩
        · cases he
        · exact .inr ⟨List.mem_cons_of_mem _ hc, hd⟩
    · rcases ih h with he | ⟨hc, hd⟩
      · exact .inl he
      · exact .inr ⟨List.mem_cons_of_mem _ hc, hd⟩

theorem eraseCmdSel_ok (h : eraseCmdSel ni offset len = .ok c) :
    c ∈ ni.cerase ∧ c.sz ∣ offset := by
  rcases eraseCmdSelFrom_ok h with he | h
  · cases he
  · exact h

theorem eraseCmdSel_of_none (h : ni.cerase.find? (fits ni offset len) = none) :
    (∃ e < 0, eraseCmdSel ni offset len = .error e) ∨
      ∃ c ∈ ni.cerase, regionTest ni c offset = true ∧ c.sz ∣ offset ∧ len < c.sz ∧
        eraseCmdSel ni offset len = .ok c := by
  rcases eraseCmdSelFrom_of_none (.error unknown) h with he | hc | he
  · exact .inl ⟨_, by decide, he⟩
  · exact .inr hc
  · exact .inl ⟨_, by decide, he⟩

-- ---------------------------------------------------------------------------
-- Ranges made up of units
-- ---------------------------------------------------------------------------

/-- The range of `len` bytes from place `g` of the flash on is made up of erase units. -/
inductive Tiles (ni : Info) : Nat → Nat → Prop where
  | nil : Tiles ni g 0
  | unit (c : EraseCmd) : c ∈ ni.cerase → Available ni c (g % ni.size) →
      Tiles ni (g + c.sz) len → Tiles ni g (c.sz + len)

structure DeviceRequest extends Request where
  units : ∀ c ∈ ni.cerase, c.szBits ≤ ni.sizeBits

/-- A request to erase. The commands of the table are sorted, and the regions that limits
stand for are parts of a chip. -/
structure EraseRequest extends DeviceRequest where
  sorted : ni.cerase.Pairwise fun c c' => c'.szBits ≤ c.szBits
  limits : ∀ c ∈ ni.cerase, c.offsetLmt.natAbs ≤ ni.size
  inside : offset + len ≤ ni.capacity

section
variable {r : DeviceRequest}

theorem sz_dvd_size (hc : c ∈ r.ni.cerase) : c.sz ∣ r.ni.size :=
  Nat.pow_dvd_pow 2 (r.units c hc)

theorem sz_dvd_iff (hc : c ∈ r.ni.cerase) : c.sz ∣ g % r.ni.size ↔ c.sz ∣ g :=
  Nat.dvd_mod_iff (sz_dvd_size hc)

theorem unit_inside (hc : c ∈ r.ni.cerase) (ha : c.sz ∣ g % r.ni.size) :
    g % r.ni.size + c.sz ≤ r.ni.size := by
  have hlt := Nat.mod_lt g r.ni.size_pos
  have := Nat.le_of_dvd (by omega) (Nat.dvd_sub (sz_dvd_size hc) ha)
  omega

end

section
variable {r : EraseRequest}

theorem fits_iff (hc : c ∈ r.ni.cerase) :
    fits r.ni (g % r.ni.size) len c = true ↔ Available r.ni c (g % r.ni.size) ∧ c.sz ≤ len := by
  simp only [fits, Bool.and_eq_true, decide_eq_true_eq,
    regionTest_iff (r.limits c hc) (Nat.mod_lt g r.ni.size_pos)]
  exact ⟨fun h => ⟨⟨h.1.1, h.1.2⟩, h.2⟩, fun h => ⟨⟨h.1.region, h.1.aligned⟩, h.2⟩⟩

theorem find_largest (h : r.ni.cerase.find? (fits r.ni (g % r.ni.size) len) = some c)
    (hc' : c' ∈ r.ni.cerase) (ha : Available r.ni c' (g % r.ni.size)) (hle : c'.sz ≤ len) :
    c'.sz ≤ c.sz := by
  obtain ⟨-, before, after, he, hbefore⟩ := List.find?_eq_some_iff_append.mp h
  rw [he] at hc'
  rcases List.mem_append.mp hc' with hb | hb
  · have := hbefore c' hb
    rw [(fits_iff (he ▸ hc')).mpr ⟨ha, hle⟩] at this
    cases this
  · rcases List.mem_cons.mp hb with rfl | hb
    · exact Nat.le_refl _
    · have hs := r.sorted
      rw [he, List.pairwise_append, List.pairwise_cons] at hs
      exact Nat.pow_le_pow_right (by decide) (hs.2.1.1 c' hb)

/-- Units are nested: those of a tiling that begin in a unit as large as any that could stand
at its place end in it. -/
theorem tiles_rest {c : EraseCmd} (hoff : c.sz ∣ off) (h : Tiles r.ni x len)
    (hx : off ≤ x) (hxc : x ≤ off + c.sz) (hend : off + c.sz ≤ x + len)
    (hmax : x = off → ∀ c' ∈ r.ni.cerase, Available r.ni c' (x % r.ni.size) → c'.sz ≤ len →
      c'.sz ≤ c.sz) :
    Tiles r.ni (off + c.sz) (x + len - (off + c.sz)) := by
  induction h with
  | nil =>
    rename_i x
    rw [show x + 0 - (off + c.sz) = 0 by omega]
    exact .nil
  | unit d hd ha ht ih =>
    rename_i x len
    by_cases hxe : x = off + c.sz
    · rw [hxe, Nat.add_sub_cancel_left]
      rw [hxe] at ha ht
      exact .unit d hd ha ht
    · have hdx : d.sz ∣ x := (sz_dvd_iff hd).mp ha.aligned
      have hdpos := d.sz_pos
      have hle : d.sz ≤ c.sz := by
        by_cases hxo : x = off
        · exact hmax hxo d hd ha (Nat.le_add_right _ _)
        · -- A larger unit would begin at a boundary of `c`.
          by_contra hlt
          have hcd : c.sz ∣ d.sz :=
            Nat.pow_dvd_pow 2 (Nat.le_of_lt ((Nat.pow_lt_pow_iff_right (by decide)).mp
              (Nat.lt_of_not_le hlt)))
          have := Nat.le_of_dvd (by omega) (Nat.dvd_sub (hcd.trans hdx) hoff)
          omega
      have hdc : d.sz ∣ c.sz := Nat.pow_dvd_pow 2 ((Nat.pow_le_pow_iff_right (by decide)).mp hle)
      have hdo : d.sz ∣ off + c.sz := by
        refine Nat.dvd_add ?_ hdc
        exact hdc.trans hoff
      have hin := Nat.le_of_dvd (by omega) (Nat.dvd_sub hdo hdx)
      have := ih (by omega) (by omega) (by omega) (fun h => by omega)
      rwa [Nat.add_assoc] at this

theorem tiles_iff_of_find (h : r.ni.cerase.find? (fits r.ni (g % r.ni.size) len) = some c) :
    Tiles r.ni g len ↔ Tiles r.ni (g + c.sz) (len - c.sz) := by
  have hc := List.mem_of_find?_eq_some h
  obtain ⟨ha, hle⟩ := (fits_iff hc).mp (List.find?_some h)
  constructor
  · intro ht
    have := tiles_rest ((sz_dvd_iff hc).mp ha.aligned) ht (Nat.le_refl g)
      (Nat.le_add_right _ _) (by omega) fun _ c' hc' ha' hle' => find_largest h hc' ha' hle'
    rwa [Nat.add_sub_add_left] at this
  · intro ht
    have := Tiles.unit c hc ha ht
    rwa [Nat.add_sub_cancel' hle] at this

theorem not_tiles_of_none (h : r.ni.cerase.find? (fits r.ni (g % r.ni.size) len) = none)
    (hl : 0 < len) : ¬Tiles r.ni g len := by
  intro ht
  cases ht with
  | nil => exact absurd hl (Nat.lt_irrefl 0)
  | unit c hc ha _ =>
    exact List.find?_eq_none.mp h c hc ((fits_iff hc).mpr ⟨ha, Nat.le_add_right _ _⟩)

end

-- ---------------------------------------------------------------------------
-- The loop
-- ---------------------------------------------------------------------------

def erasePass (ni : Info) (s : Transfer) (c : EraseCmd) : Outcome Transfer Transfer Empty :=
  let e := addrRangeEnable ni s.pos.cs s.pos.nextOffset s.ua s.sent
  let s' : Transfer :=
    ⟨s.pos, e.1, .erase s.pos.cs s.pos.nextOffset c.sz :: e.2, s32 c.sz⟩
  if s'.res < 0 then .ret s' else .next { s' with pos := posAdvance ni s.pos c.sz }

/-- A pass of the loop of `norsf_erase`, with every erase command succeeding. -/
def eraseStep (ni : Info) (isStrictLen : Bool) (len : Nat) (s : Transfer) :
    Outcome Transfer Transfer Empty :=
  if s.pos.doneB < len then
    match eraseCmdSel ni s.pos.nextOffset (len - s.pos.doneB) with
    | .error e => .ret { s with res := e }
    | .ok c =>
      if c.sz > len - s.pos.doneB && isStrictLen then .ret { s with res := lenNalign }
      else erasePass ni s c
  else .ret s

/-- `norsf_erase` comes to its end with `o`. -/
def NorsfErase (isStrictLen : Bool) (r : Request) (o : TransferResult) : Prop :=
  if overflows r.ni r.offset r.len then o = ⟨t4Epilogue lenOverflow, []⟩
  else ∃ s, Loop.Leads (eraseStep r.ni isStrictLen r.len) (transferStart r) (.ret s) ∧
    o = ⟨t4Epilogue s.res, addrRangeRestore r.ni s.sent⟩

structure Erasing (ni : Info) (offset len g left : Nat) (s : Transfer) : Prop where
  offset_le : offset ≤ g
  left_eq : left = offset + len - g
  pos_eq : s.pos = posAt ni offset (g - offset)
  ready : Ready ni s.ua s.sent g
  res_nonneg : 0 ≤ s.res

theorem erasing_start (r : Request) :
    Erasing r.ni r.offset r.len r.offset r.len (transferStart r) :=
  ⟨Nat.le_refl _, by omega, by simp [posAt, transferStart], ready_start _ _, Int.le_refl 0⟩

theorem s32_sz_neg_iff (c : EraseCmd) : s32 c.sz < 0 ↔ 2 ^ 31 ≤ c.sz := by
  have hlt : c.sz < 2 ^ 32 := Nat.pow_lt_pow_right (by decide) c.szBits_lt
  unfold s32
  rw [Nat.mod_eq_of_lt hlt]
  split
  · omega
  · omega

def afterUnit (ni : Info) (g n : Nat) (pos : Pos) (s : Transfer) : Transfer :=
  ⟨pos, (addrRangeEnable ni (g / ni.size) (g % ni.size) s.ua s.sent).1,
    .erase (g / ni.size) (g % ni.size) n ::
      (addrRangeEnable ni (g / ni.size) (g % ni.size) s.ua s.sent).2, s32 n⟩

def erased (f : Nat → UInt8) (g n x : Nat) : UInt8 := if g ≤ x ∧ x < g + n then 0xff else f x

def unitPlace (ni : Info) (g : Nat) : Nat :=
  g / ni.size * ni.size + placeOf ni.addrMode (g % ni.size) (g % ni.size)

def Addressed (ni : Info) (g : Nat) : Prop :=
  ni.addrMode = .addr3b → g % ni.size < megabyte16

theorem unitPlace_of_addressed (h : Addressed ni g) : unitPlace ni g = g := by
  have hplace : placeOf ni.addrMode (g % ni.size) (g % ni.size) = g % ni.size := by
    unfold placeOf
    cases hm : ni.addrMode with
    | addr3b => exact Nat.mod_eq_of_lt (h hm)
    | cmd4b => rfl
    | mode4b => rfl
    | ear4b => exact Nat.div_add_mod' _ _
  rw [unitPlace, hplace, Nat.div_add_mod']

theorem unitPlace_of_not_addressed (h : ¬Addressed ni g) : unitPlace ni g < g := by
  simp only [Addressed, Classical.not_imp, Nat.not_lt] at h
  have hlt : g % ni.size % megabyte16 < g % ni.size :=
    Nat.lt_of_lt_of_le (Nat.mod_lt _ (by decide)) h.2
  have hg := Nat.div_add_mod' g ni.size
  rw [unitPlace, h.1]
  simp only [placeOf]
  omega

theorem unitPlace_le (ni : Info) (g : Nat) : unitPlace ni g ≤ g := by
  by_cases h : Addressed ni g
  · exact Nat.le_of_eq (unitPlace_of_addressed h)
  · exact Nat.le_of_lt (unitPlace_of_not_addressed h)

theorem content_afterUnit (h : Ready ni s.ua s.sent g) :
    content ni flash (afterUnit ni g n pos s).sent =
      erased (content ni flash s.sent) (unitPlace ni g) n := by
  funext x
  simp only [afterUnit, content, place_of_selected (addrRangeEnable_spec h).1,
    content_addrRangeEnable, unitPlace, erased]
  rfl

/-- No place behind the unit is cleared, and the last one of it only if its address is sent
whole. -/
theorem content_afterUnit_of_le (h : Ready ni s.ua s.sent g)
    (hx : g + n ≤ x ∨ (¬Addressed ni g ∧ g + n = x + 1)) :
    content ni flash (afterUnit ni g n pos s).sent x = content ni flash s.sent x := by
  have hle := unitPlace_le ni g
  rw [content_afterUnit h, erased, if_neg]
  rcases hx with hx | ⟨ha, hx⟩
  · omega
  · have := unitPlace_of_not_addressed ha
    omega

namespace Erasing

section
variable {r : DeviceRequest} {s : Transfer}

theorem pass_eq (h : Erasing ni offset len g left s) (c : EraseCmd) :
    erasePass ni s c =
      if 2 ^ 31 ≤ c.sz then .ret (afterUnit ni g c.sz s.pos s)
      else .next (afterUnit ni g c.sz (posAdvance ni s.pos c.sz) s) := by
  simp only [erasePass, afterUnit, s32_sz_neg_iff, h.pos_eq, posAt,
    Nat.add_sub_cancel' h.offset_le]

theorem after (h : Erasing r.ni r.offset r.len g left s) (hc : c ∈ r.ni.cerase)
    (ha : c.sz ∣ g % r.ni.size) (hsz : ¬2 ^ 31 ≤ c.sz) :
    Erasing r.ni r.offset r.len (g + c.sz) (left - c.sz)
      (afterUnit r.ni g c.sz (posAdvance r.ni s.pos c.sz) s) := by
  have hle := h.offset_le
  have hleft := h.left_eq
  refine ⟨by omega, by omega, ?_, ?_, ?_⟩
  · simp only [afterUnit, h.pos_eq, posAdvance_of_le hle (unit_inside hc ha)]
  · exact (addrRangeEnable_spec h.ready).2 c.sz (by omega)
  · have := s32_sz_neg_iff c
    simp only [afterUnit]
    omega

theorem step_eq (h : Erasing r.ni r.offset r.len g left s) (hl : 0 < left) (strict : Bool) :
    eraseStep r.ni strict r.len s = match eraseCmdSel r.ni (g % r.ni.size) left with
      | .error e => .ret { s with res := e }
      | .ok c =>
        if c.sz > left && strict then .ret { s with res := lenNalign } else erasePass r.ni s c := by
  have hle := h.offset_le
  have hleft := h.left_eq
  have hdone : r.offset + (g - r.offset) = g := Nat.add_sub_cancel' hle
  rw [eraseStep, if_pos (by rw [h.pos_eq]; change g - r.offset < r.len; omega)]
  simp only [h.pos_eq, posAt, hdone]
  rw [show r.len - (g - r.offset) = left by omega]

end

section
variable {r : EraseRequest} {s : Transfer}

theorem step_of_find (h : Erasing r.ni r.offset r.len g left s) (hl : 0 < left)
    (hf : r.ni.cerase.find? (fits r.ni (g % r.ni.size) left) = some c) :
    eraseStep r.ni true r.len s = erasePass r.ni s c := by
  have hle := ((fits_iff (List.mem_of_find?_eq_some hf)).mp (List.find?_some hf)).2
  rw [h.step_eq hl, eraseCmdSel, eraseCmdSelFrom_of_find hf]
  simp [Nat.not_lt.mpr hle]

theorem step_of_none (h : Erasing r.ni r.offset r.len g left s) (hl : 0 < left)
    (hf : r.ni.cerase.find? (fits r.ni (g % r.ni.size) left) = none) :
    ∃ e < 0, eraseStep r.ni true r.len s = .ret { s with res := e } := by
  rw [h.step_eq hl]
  rcases eraseCmdSel_of_none hf with ⟨e, he, hsel⟩ | ⟨c, -, -, -, hlt, hsel⟩
  · exact ⟨e, he, by rw [hsel]⟩
  · refine ⟨lenNalign, by decide, ?_⟩
    rw [hsel]
    simp [hlt]

end

end Erasing

section
variable {r : EraseRequest} {s : Transfer}

def unitAt (ni : Info) (g left : Nat) : Nat :=
  match ni.cerase.find? (fits ni (g % ni.size) left) with
  | some c => c.sz
  | none => 0

/-- The range is made up of units and none of them is one of 2 GB, which counts as an error
when its length is returned. -/
def Exact (ni : Info) (g left : Nat) : Prop :=
  Tiles ni g left ∧ ∀ q ∈ cut (unitAt ni) g left, q.2 < 2 ^ 31

def Reached (ni : Info) (g left : Nat) : Prop :=
  ∀ q ∈ cut (unitAt ni) g left, Addressed ni q.1

theorem unitAt_of_find (h : ni.cerase.find? (fits ni (g % ni.size) left) = some c) :
    unitAt ni g left = c.sz := by
  rw [unitAt, h]

theorem exact_iff_of_find (hl : 0 < left)
    (h : r.ni.cerase.find? (fits r.ni (g % r.ni.size) left) = some c) :
    Exact r.ni g left ↔ c.sz < 2 ^ 31 ∧ Exact r.ni (g + c.sz) (left - c.sz) := by
  have hu := unitAt_of_find h
  rw [Exact, Exact, tiles_iff_of_find h, cut_cons hl (by rw [hu]; exact c.sz_pos), hu]
  simp only [List.mem_cons, forall_eq_or_imp]
  exact and_left_comm

theorem reached_iff_of_find (hl : 0 < left)
    (h : ni.cerase.find? (fits ni (g % ni.size) left) = some c) :
    Reached ni g left ↔ Addressed ni g ∧ Reached ni (g + c.sz) (left - c.sz) := by
  have hu := unitAt_of_find h
  rw [Reached, Reached, cut_cons hl (by rw [hu]; exact c.sz_pos), hu]
  simp only [List.mem_cons, forall_eq_or_imp]

theorem erased_erased (f : Nat → UInt8) (g n k : Nat) :
    erased (erased f g n) (g + n) k = erased f g (n + k) := by
  funext x
  grind [erased]

/-- How the strict loop ends: all is erased, or some of it is left as it was, or it stops with an
error. It has changed nothing then only if the first unit was not there. -/
structure Ended (ni : Info) (g left : Nat) (s s' : Transfer) : Prop where
  done : Exact ni g left → 0 ≤ s'.res
  erases : Exact ni g left → Reached ni g left →
    ∀ flash, content ni flash s'.sent = erased (content ni flash s.sent) g left
  misses : Exact ni g left → ¬Reached ni g left →
    ∃ x, g ≤ x ∧ x < g + left ∧
      ∀ flash, content ni flash s'.sent x = content ni flash s.sent x
  error : ¬Exact ni g left → s'.res < 0
  unbegun : unitAt ni g left = 0 → s'.sent = s.sent
  first : unitAt ni g left ≠ 0 → 0 < left →
    ∀ flash, content ni flash s'.sent (unitPlace ni g) = 0xff
  kept : ∀ flash x, content ni flash s.sent x = 0xff → content ni flash s'.sent x = 0xff

namespace Ended

variable {ni : Info} {s s' : Transfer}

theorem nothing (hres : 0 ≤ s.res) (g : Nat) : Ended ni g 0 s s where
  done _ := hres
  erases _ _ flash := by
    funext x
    rw [erased, if_neg (by omega)]
  misses _ hn := by
    refine absurd (fun q hq => ?_) hn
    rw [cut_nil (by simp)] at hq
    cases hq
  error hn := by
    refine absurd ⟨.nil, ?_⟩ hn
    rw [cut_nil (by simp)]
    simp
  unbegun _ := rfl
  first _ h := absurd h (Nat.lt_irrefl 0)
  kept _ _ h := h

theorem noUnit (hf : r.ni.cerase.find? (fits r.ni (g % r.ni.size) left) = none) (hl : 0 < left)
    (hres : s'.res < 0) (hsent : s'.sent = s.sent) : Ended r.ni g left s s' where
  done hex := absurd hex.1 (not_tiles_of_none hf hl)
  erases hex := absurd hex.1 (not_tiles_of_none hf hl)
  misses hex := absurd hex.1 (not_tiles_of_none hf hl)
  error _ := hres
  unbegun _ := hsent
  first hu := absurd (by rw [unitAt, hf]) hu
  kept _ _ h := hsent ▸ h

theorem content_unit_first (h : Ready ni s.ua s.sent g) (c : EraseCmd) (pos : Pos)
    (flash : Nat → UInt8) :
    content ni flash (afterUnit ni g c.sz pos s).sent (unitPlace ni g) = 0xff := by
  have := c.sz_pos
  rw [content_afterUnit h, erased, if_pos (by omega)]

theorem content_unit_kept (h : Ready ni s.ua s.sent g) {n : Nat} {pos : Pos}
    (hx : content ni flash s.sent x = 0xff) :
    content ni flash (afterUnit ni g n pos s).sent x = 0xff := by
  rw [content_afterUnit h, erased, hx, ite_self]

theorem large (hr : Ready r.ni s.ua s.sent g)
    (hf : r.ni.cerase.find? (fits r.ni (g % r.ni.size) left) = some c) (hl : 0 < left)
    (hsz : 2 ^ 31 ≤ c.sz) (pos : Pos) : Ended r.ni g left s (afterUnit r.ni g c.sz pos s) where
  done hex := absurd ((exact_iff_of_find hl hf).mp hex).1 (Nat.not_lt.mpr hsz)
  erases hex := absurd ((exact_iff_of_find hl hf).mp hex).1 (Nat.not_lt.mpr hsz)
  misses hex := absurd ((exact_iff_of_find hl hf).mp hex).1 (Nat.not_lt.mpr hsz)
  error _ := (s32_sz_neg_iff c).mpr hsz
  unbegun hu := absurd (hu.symm.trans (unitAt_of_find hf)) c.sz_pos.ne
  first _ _ := content_unit_first hr c pos
  kept _ _ := content_unit_kept hr

theorem unit_misses (hr : Ready r.ni s.ua s.sent g)
    (hf : r.ni.cerase.find? (fits r.ni (g % r.ni.size) left) = some c) (hl : 0 < left)
    (hle : c.sz ≤ left) {pos : Pos}
    (h : Ended r.ni (g + c.sz) (left - c.sz) (afterUnit r.ni g c.sz pos s) s')
    (hex : Exact r.ni (g + c.sz) (left - c.sz)) (hn : ¬Reached r.ni g left) :
    ∃ x, g ≤ x ∧ x < g + left ∧
      ∀ flash, content r.ni flash s'.sent x = content r.ni flash s.sent x := by
  have hpos := c.sz_pos
  by_cases hrest : Reached r.ni (g + c.sz) (left - c.sz)
  · -- the last place of the unit, whose address is not sent whole
    have ha : ¬Addressed r.ni g := fun ha => hn ((reached_iff_of_find hl hf).mpr ⟨ha, hrest⟩)
    refine ⟨g + c.sz - 1, by omega, by omega, fun flash => ?_⟩
    rw [h.erases hex hrest flash, erased, if_neg (by omega)]
    exact content_afterUnit_of_le hr (.inr ⟨ha, by omega⟩)
  · obtain ⟨x, hgx, hx, hsame⟩ := h.misses hex hrest
    exact ⟨x, by omega, by omega, fun flash =>
      (hsame flash).trans (content_afterUnit_of_le hr (.inl hgx))⟩

theorem unit (hr : Ready r.ni s.ua s.sent g)
    (hf : r.ni.cerase.find? (fits r.ni (g % r.ni.size) left) = some c) (hl : 0 < left)
    (hle : c.sz ≤ left) (hsz : c.sz < 2 ^ 31) {pos : Pos}
    (h : Ended r.ni (g + c.sz) (left - c.sz) (afterUnit r.ni g c.sz pos s) s') :
    Ended r.ni g left s s' where
  done hex := h.done ((exact_iff_of_find hl hf).mp hex).2
  erases hex hreach flash := by
    obtain ⟨ha, hrest⟩ := (reached_iff_of_find hl hf).mp hreach
    rw [h.erases ((exact_iff_of_find hl hf).mp hex).2 hrest, content_afterUnit hr,
      unitPlace_of_addressed ha, erased_erased, Nat.add_sub_cancel' hle]
  misses hex hn := unit_misses hr hf hl hle h ((exact_iff_of_find hl hf).mp hex).2 hn
  error hn := h.error fun hex => hn ((exact_iff_of_find hl hf).mpr ⟨hsz, hex⟩)
  unbegun hu := absurd (hu.symm.trans (unitAt_of_find hf)) c.sz_pos.ne
  first _ _ flash := h.kept flash _ (content_unit_first hr c pos flash)
  kept flash x hx := h.kept flash x (content_unit_kept hr hx)

end Ended

theorem erase_run (h : Erasing r.ni r.offset r.len g left s) :
    ∃ s', Loop.Leads (eraseStep r.ni true r.len) s (.ret s') ∧ Ended r.ni g left s s' := by
  induction left using Nat.strongRecOn generalizing g s with
  | ind left ih =>
    by_cases hl : 0 < left
    · cases hf : r.ni.cerase.find? (fits r.ni (g % r.ni.size) left) with
      | none =>
        obtain ⟨e, he, hstep⟩ := h.step_of_none hl hf
        exact ⟨_, .one hstep, .noUnit hf hl he rfl⟩
      | some c =>
        have hc := List.mem_of_find?_eq_some hf
        obtain ⟨ha, hle⟩ := (fits_iff hc).mp (List.find?_some hf)
        have hpos := c.sz_pos
        have hstep := h.step_of_find hl hf
        rw [h.pass_eq] at hstep
        split at hstep
        next hsz => exact ⟨_, .one hstep, .large h.ready hf hl hsz _⟩
        next hsz =>
          obtain ⟨s', hlead, hend⟩ := ih _ (by omega) (h.after hc ha.aligned hsz)
          exact ⟨s', .head hstep hlead, .unit h.ready hf hl hle (Nat.not_le.mp hsz) hend⟩
    · obtain rfl : left = 0 := by omega
      have hstop : eraseStep r.ni true r.len s = .ret s := by
        have := h.left_eq
        rw [eraseStep, if_neg (by rw [h.pos_eq]; change ¬g - r.offset < r.len; omega)]
      exact ⟨s, .one hstop, .nothing h.res_nonneg g⟩

/-- A strict erase clears its range and returns 0, or it says that the range is not made up of
units and leaves the flash as it is. -/
def ErasesExactly (r : EraseRequest) : Prop :=
  ∀ flash, ∃ o, NorsfErase true r.toRequest o ∧
    ((o.ret = 0 ∧ content r.ni flash o.sent = erased flash r.offset r.len) ∨
      (¬Tiles r.ni r.offset r.len ∧ o.ret ≠ 0 ∧ content r.ni flash o.sent = flash))

/-- A request that the 32-bit test refuses is not made up of units; any other one is, with the
first 16 MB of a chip only where addresses have 3 bytes, or it does not even begin with one. -/
def Erasable (r : EraseRequest) : Prop :=
  if overflows r.ni r.offset r.len then ¬Tiles r.ni r.offset r.len
  else (Exact r.ni r.offset r.len ∧ Reached r.ni r.offset r.len) ∨
    (0 < r.len ∧ unitAt r.ni r.offset r.len = 0)

theorem unitAt_eq_zero_iff :
    unitAt ni g left = 0 ↔ ni.cerase.find? (fits ni (g % ni.size) left) = none := by
  unfold unitAt
  cases ni.cerase.find? (fits ni (g % ni.size) left) with
  | none => simp
  | some c => simp [c.sz_pos.ne']

theorem unitAt_of_erasesExactly (h : ErasesExactly r)
    (ho : overflows r.ni r.offset r.len = false) (hex : ¬Exact r.ni r.offset r.len) :
    0 < r.len ∧ unitAt r.ni r.offset r.len = 0 := by
  obtain ⟨s, hlead, hend⟩ := erase_run (erasing_start r.toRequest)
  obtain ⟨o, hr, hcase⟩ := h fun _ => 0
  simp only [NorsfErase, ho, Bool.false_eq_true, ↓reduceIte] at hr
  obtain ⟨s', hs', rfl⟩ := hr
  cases hlead.unique hs' rfl rfl
  have hret : t4Epilogue s.res = 1 := if_pos (hend.error hex)
  simp only [hret, Nat.one_ne_zero, false_and, false_or, content_addrRangeRestore] at hcase
  obtain ⟨hnt, -, hcont⟩ := hcase
  have hl : 0 < r.len := by
    refine Nat.pos_of_ne_zero fun h0 => hnt ?_
    rw [h0]
    exact .nil
  refine ⟨hl, ?_⟩
  by_contra hu
  have := hend.first hu hl fun _ => 0
  rw [hcont] at this
  cases this

theorem reached_of_erasesExactly (h : ErasesExactly r)
    (ho : overflows r.ni r.offset r.len = false) (hex : Exact r.ni r.offset r.len) :
    Reached r.ni r.offset r.len := by
  obtain ⟨s, hlead, hend⟩ := erase_run (erasing_start r.toRequest)
  obtain ⟨o, hr, hcase⟩ := h fun _ => 0
  simp only [NorsfErase, ho, Bool.false_eq_true, ↓reduceIte] at hr
  obtain ⟨s', hs', rfl⟩ := hr
  cases hlead.unique hs' rfl rfl
  simp only [content_addrRangeRestore] at hcase
  have hcont := (hcase.resolve_right fun hno => hno.1 hex.1).2
  by_contra hn
  obtain ⟨x, hle, hlt, hsame⟩ := hend.misses hex hn
  have hx := hsame fun _ => 0
  rw [hcont, erased, if_pos ⟨hle, hlt⟩] at hx
  cases hx

theorem norsfErase_exact_iff (r : EraseRequest) : ErasesExactly r ↔ Erasable r := by
  unfold Erasable
  by_cases ho : overflows r.ni r.offset r.len = true
  · simp only [ErasesExactly, NorsfErase, ho, ↓reduceIte, exists_eq_left, t4Epilogue, lenOverflow,
      content]
    simp
  · have ho : overflows r.ni r.offset r.len = false := by simpa using ho
    rw [if_neg (by simp [ho])]
    constructor
    · intro h
      by_cases hex : Exact r.ni r.offset r.len
      · exact .inl ⟨hex, reached_of_erasesExactly h ho hex⟩
      · exact .inr (unitAt_of_erasesExactly h ho hex)
    · intro h flash
      obtain ⟨s, hlead, hend⟩ := erase_run (erasing_start r.toRequest)
      simp only [NorsfErase, ho, Bool.false_eq_true, ↓reduceIte]
      refine ⟨_, ⟨s, hlead, rfl⟩, ?_⟩
      rw [content_addrRangeRestore]
      rcases h with ⟨hex, hreach⟩ | ⟨hl, hu⟩
      · refine .inl ⟨if_neg (Int.not_lt.mpr (hend.done hex)), ?_⟩
        rw [hend.erases hex hreach]
        rfl
      · have hnt := not_tiles_of_none (unitAt_eq_zero_iff.mp hu) hl
        have hex : ¬Exact r.ni r.offset r.len := fun hex => hnt hex.1
        refine .inr ⟨hnt, ?_, ?_⟩
        · simp [t4Epilogue, hend.error hex]
        · rw [hend.unbegun hu]
          rfl

end

/-- One chip of 16 MB with erase units of 64, 32 and 4 KB, as in `cmn_erase_cmds`. -/
def commonChip : Info :=
  { chip32 .addr3b with
    sizeBits := 24
    cerase := [⟨16, 0, by decide⟩, ⟨15, 0, by decide⟩, ⟨12, 0, by decide⟩]
    sizeBits_lt := by decide }

def unitAndMore : EraseRequest where
  ni := commonChip
  offset := 0
  len := 4096 + 100
  offset_lt := by decide
  len_lt := by decide
  sorted := by decide
  units := by decide
  limits := by decide
  inside := by decide

/-- The unit is erased before the rest is found not to fit. -/
theorem norsfErase_stops_late : ¬ErasesExactly unitAndMore := by
  intro h
  have hf : commonChip.cerase.find? (fits commonChip (0 % commonChip.size) 4196) =
      some ⟨12, 0, by decide⟩ := rfl
  have hnone : commonChip.cerase.find? (fits commonChip (4096 % commonChip.size) 100) = none :=
    rfl
  have hex : ¬Exact commonChip 0 4196 := fun hex =>
    not_tiles_of_none (r := unitAndMore) hnone (by decide)
      ((tiles_iff_of_find (r := unitAndMore) hf).mp hex.1)
  have hu := (unitAt_of_erasesExactly h (by decide) hex).2
  rw [unitAt_eq_zero_iff] at hu
  exact absurd (hf.symm.trans hu) (by simp)

end BismarckPreloader.Nor
