import Mathlib.Algebra.GroupWithZero.Nat
import Mathlib.Tactic.Ring
import BismarckPreloader.Lib.Pieces

/-!
# The NOR flash driver: chips, positions and address ranges

Model of what `norsf_read`, `norsf_prog` and `norsf_erase` of
`src/soc/nor_spi_gen3/nor_spif_core.c` have in common. The flash is the chips one after the
other, all of one size that is a power of two. What a chip has selected is read off the
commands it was sent, the latest first.
-/

namespace BismarckPreloader.Nor

/-- The ways to address a chip beyond 16 MB, if any (`norsf_addr_mode_e`). -/
inductive AddrMode where
  | addr3b
  | mode4b
  | cmd4b
  | ear4b
  deriving DecidableEq, Repr

/-- An erase command of the table, `sz_b` as a power of two. -/
structure EraseCmd where
  szBits : Nat
  offsetLmt : Int
  szBits_lt : szBits < 32

/-- What the driver knows of the flash (`norsf_g2_info_t`), `mmio4bEn` is the build option
`NORSF_MMIO_4B_EN`. -/
structure Info where
  numChips : Nat
  sizeBits : Nat
  addrMode : AddrMode
  mmio4bEn : Bool
  cerase : List EraseCmd
  numChips_lt : numChips < 2 ^ 8
  sizeBits_lt : sizeBits < 32

/-- A single chip of 32 MB. -/
def chip32 (addrMode : AddrMode) : Info where
  numChips := 1
  sizeBits := 25
  addrMode := addrMode
  mmio4bEn := false
  cerase := []
  numChips_lt := by decide
  sizeBits_lt := by decide

def u32 (n : Nat) : Nat := n % 2 ^ 32

def s32 (n : Nat) : Int :=
  if n % 2 ^ 32 < 2 ^ 31 then (n % 2 ^ 32 : Nat) else (n % 2 ^ 32 : Nat) - 2 ^ 32

def megabyte16 : Nat := 16 * 1024 * 1024

namespace Info

variable (ni : Info)

/-- The size of one chip, `size_per_chip_b`. -/
def size : Nat := 2 ^ ni.sizeBits

def capacity : Nat := ni.size * ni.numChips

def dyn4bAddrSwitch : Bool := ni.addrMode == .ear4b || (!ni.mmio4bEn && ni.addrMode == .mode4b)

theorem size_pos : 0 < ni.size := Nat.two_pow_pos _

theorem size_le : ni.size ≤ 2 ^ 31 :=
  Nat.pow_le_pow_right (by decide) (Nat.le_of_lt_succ ni.sizeBits_lt)

theorem size_dvd : ni.size ∣ 2 ^ 32 := Nat.pow_dvd_pow 2 (Nat.le_of_lt ni.sizeBits_lt)

theorem megabyte16_dvd_size (h : megabyte16 ≤ ni.size) : megabyte16 ∣ ni.size := by
  have hb : megabyte16 = 2 ^ 24 := by decide
  rw [hb, size] at h
  rw [hb, size]
  exact Nat.pow_dvd_pow 2 ((Nat.pow_le_pow_iff_right (by decide)).mp h)

end Info

inductive Command where
  | en4b (cs : Nat)
  | ex4b (cs : Nat)
  | wrear (cs bank : Nat)
  | read (cs off len : Nat)
  | prog (cs off : Nat) (data : List UInt8)
  | erase (cs off len : Nat)
  deriving DecidableEq, Repr

/-- The chip takes addresses of 4 bytes in `mode4b`. Where the memory-mapped window uses
4 bytes too it does so all the time. -/
def wide (ni : Info) : List Command → Nat → Bool
  | [], _ => ni.mmio4bEn
  | .en4b cs :: t, c => if c = cs then true else wide ni t c
  | .ex4b cs :: t, c => if c = cs then false else wide ni t c
  | _ :: t, c => wide ni t c

def bank : List Command → Nat → Nat
  | [], _ => 0
  | .wrear cs b :: t, c => if c = cs then b else bank t c
  | _ :: t, c => bank t c

/-- The place in the chip that an address means: the driver sends 3 bytes of it, or 4 bytes
in the 4-byte modes. A chip that expects 3 bytes makes nothing of 4. -/
def place (ni : Info) (sent : List Command) (cs addr : Nat) : Option Nat :=
  match ni.addrMode with
  | .addr3b => some (addr % megabyte16)
  | .cmd4b => some addr
  | .mode4b => if wide ni sent cs then some addr else none
  | .ear4b => some (bank sent cs * megabyte16 + addr % megabyte16)

def Selected (ni : Info) (sent : List Command) (cs addr : Nat) : Prop :=
  match ni.addrMode with
  | .addr3b => True
  | .cmd4b => True
  | .mode4b => wide ni sent cs = true
  | .ear4b => bank sent cs = addr / megabyte16

def placeOf (mode : AddrMode) (off addr : Nat) : Nat :=
  match mode with
  | .addr3b => addr % megabyte16
  | .cmd4b => addr
  | .mode4b => addr
  | .ear4b => off / megabyte16 * megabyte16 + addr % megabyte16

theorem place_of_selected (h : Selected ni sent cs off) :
    place ni sent cs addr = some (placeOf ni.addrMode off addr) := by
  unfold Selected at h
  unfold place placeOf
  cases hm : ni.addrMode <;> simp_all

-- ---------------------------------------------------------------------------
-- The address range that is enabled
-- ---------------------------------------------------------------------------

structure UsableAddr where
  start : Nat
  stop : Nat
  deriving DecidableEq, Repr

/-- `norsf_addr_range_enable`: the range in reach and the commands sent. -/
def addrRangeEnable (ni : Info) (cs nextOffset : Nat) (ua : UsableAddr) (sent : List Command) :
    UsableAddr × List Command :=
  if ni.dyn4bAddrSwitch then
    let globalOffset := u32 (cs * ni.size + nextOffset)
    if ua.start ≤ globalOffset ∧ globalOffset < ua.stop then (ua, sent)
    else
      let start := u32 (cs * ni.size)
      if ni.addrMode = .mode4b then (⟨start, u32 (start + ni.size)⟩, .en4b cs :: sent)
      else
        let bankId := nextOffset / megabyte16
        let start := u32 (start + bankId * megabyte16)
        (⟨start, u32 (start + megabyte16)⟩, .wrear cs bankId :: sent)
  else (ua, sent)

/-- `norsf_addr_range_restore`: the commands sent, chip after chip. -/
def addrRangeRestore (ni : Info) (sent : List Command) : List Command :=
  (List.range ni.numChips).foldl (fun sent i =>
    if ni.dyn4bAddrSwitch then
      if ni.addrMode = .mode4b then .ex4b i :: sent else .wrear i 0 :: sent
    else sent) sent

theorem addrRangeEnable_ind (P : List Command → Prop) (h : P sent)
    (hen : ni.addrMode = .mode4b → P (.en4b cs :: sent))
    (hwr : ni.addrMode ≠ .mode4b → P (.wrear cs (off / megabyte16) :: sent)) :
    P (addrRangeEnable ni cs off ua sent).2 := by
  unfold addrRangeEnable
  split
  · dsimp only
    split
    · exact h
    · split
      · rename_i hm
        exact hen hm
      · rename_i hm
        exact hwr hm
  · exact h

theorem addrRangeRestore_ind (P : List Command → Prop) (h : P sent)
    (hex : ni.addrMode = .mode4b → ∀ i < ni.numChips, ∀ t, P t → P (.ex4b i :: t))
    (hwr : ni.addrMode ≠ .mode4b → ∀ i < ni.numChips, ∀ t, P t → P (.wrear i 0 :: t)) :
    P (addrRangeRestore ni sent) := by
  unfold addrRangeRestore
  have hchips : ∀ i ∈ List.range ni.numChips, i < ni.numChips := fun _ => List.mem_range.mp
  generalize List.range ni.numChips = chips at hchips
  induction chips generalizing sent with
  | nil => exact h
  | cons i chips ih =>
    rw [List.foldl_cons]
    have hi := hchips i List.mem_cons_self
    refine ih ?_ fun j hj => hchips j (List.mem_cons_of_mem _ hj)
    split
    · split
      · rename_i hm
        exact hex hm i hi sent h
      · rename_i hm
        exact hwr hm i hi sent h
    · exact h

def Info.reach (ni : Info) : Nat :=
  if ni.addrMode = .ear4b then megabyte16 else ni.size

/-- The range was enabled for a place `g₀` not far behind `g`, and the selection still
matches wherever that range reaches. -/
def Covers (ni : Info) (ua : UsableAddr) (sent : List Command) (g : Nat) : Prop :=
  ua.stop = 0 ∨ ∃ g₀, g₀ ≤ g ∧ g ≤ g₀ + 2 ^ 31 ∧
    ua.start = u32 (g₀ / ni.reach * ni.reach) ∧
    ua.stop = u32 (g₀ / ni.reach * ni.reach + ni.reach) ∧
    ∀ g', g' / ni.reach = g₀ / ni.reach → Selected ni sent (g' / ni.size) (g' % ni.size)

def Ready (ni : Info) (ua : UsableAddr) (sent : List Command) (g : Nat) : Prop :=
  if ni.dyn4bAddrSwitch = true then
    -- The one bank of a small chip is selected always.
    if ni.addrMode = .ear4b ∧ ni.size < megabyte16 then ∀ c, bank sent c = 0
    else Covers ni ua sent g
  else ∀ c, wide ni sent c = ni.mmio4bEn

theorem same_block {b : Nat} (hb : 0 < b) (hdvd : b ∣ 2 ^ 32) (hle : b ≤ 2 ^ 31) (h₀ : g₀ ≤ g)
    (hg : g ≤ g₀ + 2 ^ 31) (hs : u32 (g₀ / b * b) ≤ u32 g)
    (he : u32 g < u32 (g₀ / b * b + b)) : g / b = g₀ / b := by
  unfold u32 at hs he
  have hbase := Nat.div_add_mod' g₀ b
  have hlt := Nat.mod_lt g₀ hb
  generalize hq : g₀ / b = q at hs he hbase
  -- The block does not end at `2 ^ 32` or the range would be empty.
  have hroom : q * b % 2 ^ 32 + b < 2 ^ 32 := by
    by_contra hn
    have hd : b ∣ 2 ^ 32 - q * b % 2 ^ 32 :=
      Nat.dvd_sub hdvd ((Nat.dvd_mod_iff hdvd).mpr (Nat.dvd_mul_left b q))
    have := Nat.le_of_dvd (by omega) hd
    have : (q * b + b) % 2 ^ 32 = 0 := by omega
    omega
  have hin : q * b ≤ g ∧ g < q * b + b := by omega
  exact Nat.div_eq_of_lt_le hin.1 (by rw [Nat.succ_mul]; exact hin.2)

theorem u32_u32_add (m n : Nat) : u32 (u32 m + n) = u32 (m + n) := by
  unfold u32
  omega

namespace Info

variable (ni : Info)

theorem reach_pos : 0 < ni.reach := by
  unfold reach
  split
  · decide
  · exact ni.size_pos

theorem reach_le : ni.reach ≤ 2 ^ 31 := by
  unfold reach
  split
  · decide
  · exact ni.size_le

theorem reach_dvd : ni.reach ∣ 2 ^ 32 := by
  unfold reach
  split
  · decide
  · exact ni.size_dvd

end Info

theorem bank_start {ni : Info} (h : megabyte16 ≤ ni.size) (g : Nat) :
    g / ni.size * ni.size + g % ni.size / megabyte16 * megabyte16 =
      g / megabyte16 * megabyte16 := by
  obtain ⟨k, hk⟩ := ni.megabyte16_dvd_size h
  rw [hk, ← Nat.div_div_eq_div_mul, Nat.mod_mul_right_div_self]
  calc g / megabyte16 / k * (megabyte16 * k) + g / megabyte16 % k * megabyte16
      = (k * (g / megabyte16 / k) + g / megabyte16 % k) * megabyte16 := by ring
    _ = g / megabyte16 * megabyte16 := by rw [Nat.div_add_mod]

theorem same_bank {ni : Info} (h : megabyte16 ≤ ni.size) (hg : g' / megabyte16 = g / megabyte16) :
    g' / ni.size = g / ni.size ∧
      g' % ni.size / megabyte16 = g % ni.size / megabyte16 := by
  obtain ⟨k, hk⟩ := ni.megabyte16_dvd_size h
  rw [hk, ← Nat.div_div_eq_div_mul, ← Nat.div_div_eq_div_mul, Nat.mod_mul_right_div_self,
    Nat.mod_mul_right_div_self, hg]
  exact ⟨rfl, rfl⟩

theorem Covers.move (hs : ua.start = u32 (g / ni.reach * ni.reach))
    (he : ua.stop = u32 (g / ni.reach * ni.reach + ni.reach))
    (h : ∀ g', g' / ni.reach = g / ni.reach → Selected ni sent (g' / ni.size) (g' % ni.size)) :
    Selected ni sent (g / ni.size) (g % ni.size) ∧
      ∀ n ≤ 2 ^ 31, Covers ni ua sent (g + n) :=
  ⟨h g rfl, fun n hn => .inr ⟨g, Nat.le_add_right g n, Nat.add_le_add_left hn g, hs, he, h⟩⟩

theorem Covers.stay (h : Covers ni ua sent g) (hs : ua.start ≤ u32 g) (he : u32 g < ua.stop) :
    Selected ni sent (g / ni.size) (g % ni.size) ∧
      ∀ n ≤ 2 ^ 31, Covers ni ua sent (g + n) := by
  rcases h with h | ⟨g₀, h₀, hg, hstart, hstop, hsel⟩
  · omega
  · have hb : g / ni.reach = g₀ / ni.reach :=
      same_block ni.reach_pos ni.reach_dvd ni.reach_le h₀ hg (hstart ▸ hs) (hstop ▸ he)
    rw [← hb] at hstart hstop hsel
    exact Covers.move hstart hstop hsel

/-- Enabling the range of a place selects it, and what is selected can be relied on from
there on. -/
theorem addrRangeEnable_spec (h : Ready ni ua sent g) :
    Selected ni (addrRangeEnable ni (g / ni.size) (g % ni.size) ua sent).2 (g / ni.size)
        (g % ni.size) ∧
      ∀ n ≤ 2 ^ 31, Ready ni (addrRangeEnable ni (g / ni.size) (g % ni.size) ua sent).1
        (addrRangeEnable ni (g / ni.size) (g % ni.size) ua sent).2 (g + n) := by
  unfold Ready at h ⊢
  unfold addrRangeEnable
  rw [Nat.div_add_mod' g ni.size]
  by_cases hd : ni.dyn4bAddrSwitch = true
  · simp only [hd, ↓reduceIte] at h ⊢
    by_cases hsmall : ni.addrMode = .ear4b ∧ ni.size < megabyte16
    · have hb : g % ni.size / megabyte16 = 0 :=
        Nat.div_eq_of_lt (Nat.lt_trans (Nat.mod_lt _ ni.size_pos) hsmall.2)
      simp only [hsmall, and_self, ↓reduceIte, reduceCtorEq, Selected, hb] at h ⊢
      split
      · exact ⟨h _, fun _ _ => h⟩
      · exact ⟨by simp [bank], fun _ _ c => by simp [bank, h]⟩
    · simp only [hsmall, ↓reduceIte] at h ⊢
      split
      · rename_i hin
        exact h.stay hin.1 hin.2
      · by_cases hm : ni.addrMode = .mode4b
        · have hr : ni.reach = ni.size := by simp [Info.reach, hm]
          simp only [hm, ↓reduceIte]
          refine Covers.move (by rw [hr]) (by rw [hr, u32_u32_add]) fun g' hg' => ?_
          rw [hr] at hg'
          simp [Selected, hm, wide, hg']
        · have hear : ni.addrMode = .ear4b := by
            simpa [Info.dyn4bAddrSwitch, hm] using hd
          have hr : ni.reach = megabyte16 := by simp [Info.reach, hear]
          have hbig : megabyte16 ≤ ni.size := by
            simp only [hear, true_and, Nat.not_lt] at hsmall
            exact hsmall
          simp only [hm, ↓reduceIte]
          refine Covers.move ?_ ?_ fun g' hg' => ?_
          · rw [hr, u32_u32_add, bank_start hbig]
          · rw [hr, u32_u32_add, u32_u32_add, bank_start hbig]
          · rw [hr] at hg'
            obtain ⟨hc, ho⟩ := same_bank hbig hg'
            simp [Selected, hear, bank, hc, ho]
  · simp only [hd, Bool.false_eq_true, ↓reduceIte] at h ⊢
    refine ⟨?_, fun _ _ => h⟩
    unfold Selected
    cases hm : ni.addrMode with
    | addr3b => trivial
    | cmd4b => trivial
    | mode4b =>
      have : ni.mmio4bEn = true := by simpa [Info.dyn4bAddrSwitch, hm] using hd
      exact (h _).trans this
    | ear4b => simp [Info.dyn4bAddrSwitch, hm] at hd

theorem ready_start (ni : Info) (g : Nat) : Ready ni ⟨0, 0⟩ [] g := by
  unfold Ready
  split
  · split
    · exact fun _ => rfl
    · exact .inl rfl
  · exact fun _ => rfl

structure Pos where
  cs : Nat
  nextOffset : Nat
  doneB : Nat
  deriving DecidableEq, Repr

/-- `POS_ADVANCE` for a transfer that succeeded. -/
def posAdvance (ni : Info) (p : Pos) (res : Nat) : Pos :=
  if p.nextOffset + res ≥ ni.size then ⟨p.cs + 1, 0, p.doneB + res⟩
  else ⟨p.cs, p.nextOffset + res, p.doneB + res⟩

def posAt (ni : Info) (offset done : Nat) : Pos :=
  ⟨(offset + done) / ni.size, (offset + done) % ni.size, done⟩

theorem posAdvance_posAt (ni : Info) (offset done res : Nat)
    (h : (offset + done) % ni.size + res ≤ ni.size) :
    posAdvance ni (posAt ni offset done) res = posAt ni offset (done + res) := by
  have hg := Nat.div_add_mod (offset + done) ni.size
  unfold posAdvance posAt
  dsimp only
  generalize (offset + done) / ni.size = q, (offset + done) % ni.size = r at hg h ⊢
  rw [← Nat.add_assoc, ← hg, Nat.add_assoc]
  split
  · have : r + res = ni.size := by omega
    rw [this, ← Nat.mul_succ, Nat.mul_div_cancel_left _ ni.size_pos, Nat.mul_mod_right]
  · rw [Nat.mul_add_div ni.size_pos, Nat.mul_add_mod, Nat.div_eq_of_lt (by omega),
      Nat.mod_eq_of_lt (by omega), Nat.add_zero]

theorem posAdvance_of_le {ni : Info} (hle : offset ≤ g) (h : g % ni.size + n ≤ ni.size) :
    posAdvance ni (posAt ni offset (g - offset)) n = posAt ni offset (g + n - offset) := by
  have hdone : offset + (g - offset) = g := Nat.add_sub_cancel' hle
  rw [posAdvance_posAt ni offset (g - offset) n (hdone.symm ▸ h), ← Nat.sub_add_comm hle]

def overflows (ni : Info) (offset len : Nat) : Bool :=
  decide (u32 (offset + len) > u32 (ni.size * ni.numChips))

def lenOverflow : Int := -35

/-- The value that `norsf_t4_epilogue` returns. -/
def t4Epilogue (res : Int) : Nat := if res < 0 then 1 else 0

structure Transfer where
  pos : Pos
  ua : UsableAddr
  sent : List Command
  res : Int

structure TransferResult where
  ret : Nat
  sent : List Command

structure Request where
  ni : Info
  offset : Nat
  len : Nat
  offset_lt : offset < 2 ^ 32
  len_lt : len < 2 ^ 32

def transferStart (r : Request) : Transfer :=
  ⟨⟨r.offset / r.ni.size, r.offset % r.ni.size, 0⟩, ⟨0, 0⟩, [], 0⟩

-- ---------------------------------------------------------------------------
-- What the flash holds
-- ---------------------------------------------------------------------------

def program (f : Nat → UInt8) (at_ : Nat → Option Nat) : Nat → List UInt8 → Nat → UInt8
  | _, [] => f
  | off, d :: ds =>
    program (fun g => if at_ off = some g then f g &&& d else f g) at_ (off + 1) ds

/-- The bytes of the flash after the commands, from `flash` on. An erase command clears the unit
at the place that its address means to the chip. -/
def content (ni : Info) (flash : Nat → UInt8) : List Command → Nat → UInt8
  | [] => flash
  | .prog cs off data :: t =>
    program (content ni flash t) (fun addr => (place ni t cs addr).map (cs * ni.size + ·)) off data
  | .erase cs off len :: t =>
    match place ni t cs off with
    | some q => fun g =>
      if cs * ni.size + q ≤ g ∧ g < cs * ni.size + q + len then 0xff else content ni flash t g
    | none => content ni flash t
  | _ :: t => content ni flash t

theorem program_frame (h : ∀ i < data.length, at_ (off + i) ≠ some g) :
    program f at_ off data g = f g := by
  induction data generalizing f off with
  | nil => rfl
  | cons d ds ih =>
    have h₀ : at_ off ≠ some g := h 0 (Nat.zero_lt_succ _)
    rw [program, ih fun i hi => ?_]
    · exact if_neg h₀
    · have := h (i + 1) (Nat.succ_lt_succ hi)
      rwa [← Nat.add_assoc, Nat.add_right_comm] at this

theorem program_hit (f : Nat → UInt8) (at_ : Nat → Option Nat)
    (h : ∀ i < data.length, at_ (off + i) = some (base + i))
    (hi : i < data.length) :
    program f at_ off data (base + i) = f (base + i) &&& data.get ⟨i, hi⟩ := by
  induction data generalizing f off base i with
  | nil => exact absurd hi (Nat.not_lt_zero _)
  | cons d ds ih =>
    have h₀ : at_ off = some base := h 0 (Nat.zero_lt_succ _)
    have hs : ∀ j < ds.length, at_ (off + 1 + j) = some (base + 1 + j) := fun j hj => by
      have := h (j + 1) (Nat.succ_lt_succ hj)
      rwa [← Nat.add_assoc, ← Nat.add_assoc, Nat.add_right_comm, Nat.add_right_comm base] at this
    rw [program, h₀]
    cases i with
    | zero =>
      rw [program_frame fun j hj => by rw [hs j hj, ne_eq, Option.some.injEq]; omega]
      simp
    | succ i =>
      rw [show base + (i + 1) = base + 1 + i by omega, ih _ hs (Nat.lt_of_succ_lt_succ hi),
        if_neg (by rw [Option.some.injEq]; omega)]
      rfl

theorem content_addrRangeEnable :
    content ni flash (addrRangeEnable ni cs off ua sent).2 = content ni flash sent :=
  addrRangeEnable_ind (fun t => content ni flash t = content ni flash sent) rfl
    (fun _ => rfl) fun _ => rfl

theorem content_addrRangeRestore :
    content ni flash (addrRangeRestore ni sent) = content ni flash sent :=
  addrRangeRestore_ind (fun t => content ni flash t = content ni flash sent) rfl
    (fun _ _ _ _ h => h) fun _ _ _ _ h => h

theorem addrRangeEnable_frame (ni : Info) (off : Nat) (ua : UsableAddr) (sent : List Command)
    (h : c ≠ cs) :
    wide ni (addrRangeEnable ni cs off ua sent).2 c = wide ni sent c ∧
      bank (addrRangeEnable ni cs off ua sent).2 c = bank sent c :=
  addrRangeEnable_ind (fun t => wide ni t c = wide ni sent c ∧ bank t c = bank sent c)
    ⟨rfl, rfl⟩ (fun _ => ⟨if_neg h, rfl⟩) fun _ => ⟨rfl, if_neg h⟩

-- ---------------------------------------------------------------------------
-- Commands inside of the flash
-- ---------------------------------------------------------------------------

def Inside (ni : Info) : Command → Prop
  | .en4b cs => cs < ni.numChips
  | .ex4b cs => cs < ni.numChips
  | .wrear cs _ => cs < ni.numChips
  | .read cs off len => cs < ni.numChips ∧ off + len ≤ ni.size
  | .prog cs off data => cs < ni.numChips ∧ off + data.length ≤ ni.size
  | .erase cs off len => cs < ni.numChips ∧ off + len ≤ ni.size

def AllInside (ni : Info) (sent : List Command) : Prop := ∀ c ∈ sent, Inside ni c

theorem allInside_cons : AllInside ni (c :: t) ↔ Inside ni c ∧ AllInside ni t :=
  List.forall_mem_cons

theorem chip_lt {ni : Info} (h : g < ni.capacity) : g / ni.size < ni.numChips :=
  Nat.div_lt_of_lt_mul h

theorem AllInside.enable (h : AllInside ni sent) (hcs : cs < ni.numChips) :
    AllInside ni (addrRangeEnable ni cs off ua sent).2 :=
  addrRangeEnable_ind (AllInside ni) h (fun _ => allInside_cons.mpr ⟨hcs, h⟩)
    fun _ => allInside_cons.mpr ⟨hcs, h⟩

theorem AllInside.restore (h : AllInside ni sent) : AllInside ni (addrRangeRestore ni sent) :=
  addrRangeRestore_ind (AllInside ni) h (fun _ _ hi _ ht => allInside_cons.mpr ⟨hi, ht⟩)
    fun _ _ hi _ ht => allInside_cons.mpr ⟨hi, ht⟩

/-- The piece is inside of what its address reaches: the first 16 MB of the chip with 3 bytes
of address, one bank with the extended address register. -/
def InReach (mode : AddrMode) (off n : Nat) : Prop :=
  match mode with
  | .addr3b => off + n ≤ megabyte16
  | .cmd4b => True
  | .mode4b => True
  | .ear4b => off % megabyte16 + n ≤ megabyte16

theorem inReach_iff (hn : 0 < n) :
    InReach mode off n ↔ ∀ i < n, placeOf mode off (off + i) = off + i := by
  unfold InReach placeOf
  cases mode with
  | addr3b =>
    simp only [megabyte16]
    refine ⟨fun h i hi => by omega, fun h => ?_⟩
    have := h (n - 1) (by omega)
    omega
  | cmd4b => simp
  | mode4b => simp
  | ear4b =>
    simp only [megabyte16]
    refine ⟨fun h i hi => by omega, fun h => ?_⟩
    have := h (n - 1) (by omega)
    omega

theorem content_prog (hsel : Selected ni t (g / ni.size) (g % ni.size)) (hn : 0 < data.length)
    (hr : InReach ni.addrMode (g % ni.size) data.length) (x : Nat) :
    content ni flash (.prog (g / ni.size) (g % ni.size) data :: t) x =
      if h : g ≤ x ∧ x - g < data.length then content ni flash t x &&& data.get ⟨x - g, h.2⟩
      else content ni flash t x := by
  have hat : ∀ i < data.length,
      (place ni t (g / ni.size) (g % ni.size + i)).map (g / ni.size * ni.size + ·) =
        some (g + i) := fun i hi => by
    rw [place_of_selected hsel, (inReach_iff hn).mp hr i hi, Option.map_some, ← Nat.add_assoc,
      Nat.div_add_mod']
  rw [content]
  split
  · rename_i h
    have := program_hit (content ni flash t)
      (fun addr => (place ni t (g / ni.size) addr).map (g / ni.size * ni.size + ·)) hat h.2
    rwa [Nat.add_sub_cancel' h.1] at this
  · rename_i h
    refine program_frame fun i hi => ?_
    rw [hat i hi, ne_eq, Option.some.injEq]
    omega

end BismarckPreloader.Nor
