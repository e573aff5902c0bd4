import BismarckPreloader.Nor.Device

/-!
# Programming the NOR flash

Model of `norsf_prog`. The range is programmed page by page. Where the source is in the
flash itself, each piece is first copied from the memory-mapped window to a buffer, and the
window shows what the chips have selected at that time.
-/

namespace BismarckPreloader.Nor

open Pieces

/-- The length of a page, the smaller one of `cprog_lim_b` and `NORSF_WBUF_LIM_B`. -/
def progUnit : Nat := min 256 256

/-- What there is to read from: the flash, the memory that a source outside of the flash is
in, and what a chip puts on the bus that does not take the address. -/
structure Memory where
  flash : Nat → UInt8
  ram : Nat → UInt8
  noise : Nat → UInt8

/-- The place of the flash that a place of the window shows. The window sends 3 bytes of
address unless it is set to 4. -/
def windowPlace (ni : Info) (sent : List Command) (w : Nat) : Option Nat :=
  match ni.addrMode with
  | .addr3b => some w
  | .cmd4b => some w
  | .mode4b => if !ni.mmio4bEn && wide ni sent (w / ni.size) then none else some w
  | .ear4b => some (w / ni.size * ni.size +
      (bank sent (w / ni.size) * megabyte16 + w % ni.size % megabyte16))

def Info.windowSize (ni : Info) : Nat :=
  if ni.addrMode = .cmd4b ∨ (ni.mmio4bEn = true ∧ ni.addrMode = .mode4b) then 2 * megabyte16
  else megabyte16

def sourceByte (ni : Info) (m : Memory) (source : Option Nat) (sent : List Command) (i : Nat) :
    UInt8 :=
  match source with
  | none => m.ram i
  | some a => match windowPlace ni sent (a + i) with
    | some g => content ni m.flash sent g
    | none => m.noise i

def progPass (ni : Info) (m : Memory) (source : Option Nat) (s : Transfer) (opLen : Nat) :
    Transfer :=
  let data := (List.range opLen).map fun i => sourceByte ni m source s.sent (s.pos.doneB + i)
  let e := addrRangeEnable ni s.pos.cs s.pos.nextOffset s.ua s.sent
  ⟨posAdvance ni s.pos opLen, e.1, .prog s.pos.cs s.pos.nextOffset data :: e.2, opLen⟩

/-- A pass of the loop of `norsf_prog`, with every page program succeeding. -/
def progStep (ni : Info) (m : Memory) (source : Option Nat) (len : Nat) (s : Transfer) :
    Outcome Transfer Transfer Empty :=
  if s.pos.doneB < len then
    .next (progPass ni m source s
      (min (len - s.pos.doneB) (progUnit - s.pos.nextOffset % progUnit)))
  else .ret s

structure ProgRequest extends Request where
  source : Option Nat
  pages : 8 ≤ ni.sizeBits
  inside : offset + len ≤ ni.capacity
  source_inside : ∀ a, source = some a → a + len ≤ ni.windowSize ∧ a + len ≤ ni.capacity

/-- `norsf_prog` comes to its end with `o`. -/
def NorsfProg (m : Memory) (source : Option Nat) (r : Request) (o : TransferResult) : Prop :=
  if overflows r.ni r.offset r.len then o = ⟨t4Epilogue lenOverflow, []⟩
  else ∃ s, Loop.Leads (progStep r.ni m source r.len) (transferStart r) (.ret s) ∧
    o = ⟨t4Epilogue s.res, addrRangeRestore r.ni s.sent⟩

-- ---------------------------------------------------------------------------
-- The pieces
-- ---------------------------------------------------------------------------

def progPiece (ni : Info) (g left : Nat) : Nat :=
  min left (progUnit - g % ni.size % progUnit)

theorem progUnit_eq : progUnit = 256 := rfl

theorem progPiece_proper (ni : Info) : Proper (progPiece ni) := by
  intro g left hl
  rw [progPiece, progUnit_eq]
  omega

theorem progPiece_page (ni : Info) (g left : Nat) :
    g % ni.size % 256 + progPiece ni g left ≤ 256 := by
  rw [progPiece, progUnit_eq]
  omega

theorem page_dvd {ni : Info} (h : 8 ≤ ni.sizeBits) : 256 ∣ ni.size := Nat.pow_dvd_pow 2 h

theorem progPiece_inside {ni : Info} (h : 8 ≤ ni.sizeBits) (g left : Nat) :
    g % ni.size + progPiece ni g left ≤ ni.size := by
  have hp := progPiece_page ni g left
  have hlt := Nat.mod_lt g ni.size_pos
  obtain ⟨k, hk⟩ := page_dvd h
  omega

theorem progPiece_bank (ni : Info) (g left : Nat) :
    g % ni.size % megabyte16 + progPiece ni g left ≤ megabyte16 := by
  have := progPiece_page ni g left
  unfold megabyte16
  omega

/-- A program command that crosses no page, no bank and no chip and finds the selection that
its address needs. -/
structure Fits (ni : Info) (t : List Command) (cs off n : Nat) : Prop where
  page : off % 256 + n ≤ 256
  bank : off % megabyte16 + n ≤ megabyte16
  chip : off + n ≤ ni.size
  selected : Selected ni t cs off

def AllFit (ni : Info) (sent : List Command) : Prop :=
  ∀ t cs off data, .prog cs off data :: t <:+ sent → Fits ni t cs off data.length

def Switched (ni : Info) (sent : List Command) (c : Nat) : Prop :=
  match ni.addrMode with
  | .addr3b => False
  | .cmd4b => False
  | .mode4b => ni.mmio4bEn = false ∧ wide ni sent c = true
  | .ear4b => bank sent c ≠ 0

/-- A place of the chip between `offset` and `g` has the chip switched: any place in the
4-byte mode, one beyond the first bank with the extended address register. -/
def Disturbed (ni : Info) (offset g c : Nat) : Prop :=
  ni.dyn4bAddrSwitch = true ∧ ∃ x, offset ≤ x ∧ x < g ∧ x / ni.size = c ∧
    (ni.addrMode = .ear4b → megabyte16 ≤ x % ni.size)

structure Programming (ni : Info) (offset len g left : Nat) (s : Transfer) : Prop where
  offset_le : offset ≤ g
  sum : g + left = offset + len
  rest : cut (progPiece ni) g left <:+ cut (progPiece ni) offset len
  pos_eq : s.pos = posAt ni offset (g - offset)
  ready : Ready ni s.ua s.sent g
  fit : AllFit ni s.sent
  switched : ∀ c, Switched ni s.sent c ↔ Disturbed ni offset g c
  res_nonneg : 0 ≤ s.res

section
variable {ni : Info} {m : Memory} {source : Option Nat} {offset len g left : Nat}
  {s : Transfer}

def pieceData (ni : Info) (m : Memory) (source : Option Nat) (offset g n : Nat)
    (sent : List Command) : List UInt8 :=
  (List.range n).map fun i => sourceByte ni m source sent (g - offset + i)

theorem length_pieceData : (pieceData ni m source offset g n sent).length = n := by
  simp [pieceData]

theorem AllFit.cons (h : AllFit ni sent) (hc : ∀ cs off data, .prog cs off data ≠ c) :
    AllFit ni (c :: sent) := by
  intro t cs off data ht
  refine h t cs off data ((List.suffix_cons_iff.mp ht).resolve_left fun he => ?_)
  exact hc cs off data (List.cons.inj he).1

theorem AllFit.enable (h : AllFit ni sent) : AllFit ni (addrRangeEnable ni cs off ua sent).2 :=
  addrRangeEnable_ind (AllFit ni) h (fun _ => h.cons nofun) fun _ => h.cons nofun

theorem AllFit.restore (h : AllFit ni sent) : AllFit ni (addrRangeRestore ni sent) :=
  addrRangeRestore_ind (AllFit ni) h (fun _ _ _ _ ht => ht.cons nofun)
    fun _ _ _ _ ht => ht.cons nofun

theorem AllFit.prog (h : AllFit ni t) (hf : Fits ni t cs off data.length) :
    AllFit ni (.prog cs off data :: t) := by
  intro t' cs' off' data' ht
  rcases List.suffix_cons_iff.mp ht with he | ht
  · cases he
    exact hf
  · exact h _ _ _ _ ht

theorem piece_chip (hin : g % ni.size + n ≤ ni.size) (hx : g ≤ x) (hxn : x < g + n) :
    x / ni.size = g / ni.size ∧ x % ni.size = g % ni.size + (x - g) := by
  have hg := Nat.div_add_mod g ni.size
  have hxe : x = ni.size * (g / ni.size) + (g % ni.size + (x - g)) := by omega
  have hlt : g % ni.size + (x - g) < ni.size := by omega
  constructor
  · rw [hxe, Nat.mul_add_div ni.size_pos, Nat.div_eq_of_lt hlt, Nat.add_zero]
  · rw [hxe, Nat.mul_add_mod, Nat.mod_eq_of_lt hlt, ← hxe]

theorem switched_iff_of_selected (h : Selected ni t c off) :
    Switched ni t c ↔
      ni.dyn4bAddrSwitch = true ∧ (ni.addrMode = .ear4b → megabyte16 ≤ off) := by
  unfold Selected at h
  unfold Switched Info.dyn4bAddrSwitch
  cases hm : ni.addrMode with
  | addr3b => simp
  | cmd4b => simp
  | mode4b =>
    rw [hm] at h
    simp only at h
    simp [h]
  | ear4b =>
    rw [hm] at h
    simp only at h
    simp only [h, ne_eq, Nat.div_eq_zero_iff, megabyte16]
    simp

theorem disturbed_iff_of_piece (hin : g % ni.size + n ≤ ni.size)
    (hb : g % ni.size % megabyte16 + n ≤ megabyte16) (hn : 0 < n) (hle : offset ≤ g) :
    Disturbed ni offset (g + n) (g / ni.size) ↔
      ni.dyn4bAddrSwitch = true ∧ (ni.addrMode = .ear4b → megabyte16 ≤ g % ni.size) := by
  constructor
  · rintro ⟨hd, x, -, hlt, hc, hx⟩
    refine ⟨hd, fun hear => ?_⟩
    have hx := hx hear
    by_cases hgx : g ≤ x
    · have := (piece_chip hin hgx hlt).2
      unfold megabyte16 at hx hb ⊢
      omega
    · have hx' := Nat.div_add_mod x ni.size
      have hg' := Nat.div_add_mod g ni.size
      rw [hc] at hx'
      omega
  · rintro ⟨hd, hx⟩
    exact ⟨hd, g, hle, by omega, rfl, hx⟩

theorem disturbed_iff_of_ne (hin : g % ni.size + n ≤ ni.size) (hc : c ≠ g / ni.size) :
    Disturbed ni offset (g + n) c ↔ Disturbed ni offset g c := by
  constructor
  · rintro ⟨hd, x, hle, hlt, hxc, hx⟩
    refine ⟨hd, x, hle, ?_, hxc, hx⟩
    by_contra hgx
    exact hc (hxc ▸ (piece_chip hin (Nat.le_of_not_lt hgx) hlt).1)
  · rintro ⟨hd, x, hle, hlt, h⟩
    exact ⟨hd, x, hle, by omega, h⟩

theorem switched_iff_of_ne (hc : c ≠ cs) :
    Switched ni (.prog cs off data :: (addrRangeEnable ni cs off ua sent).2) c ↔
      Switched ni sent c := by
  obtain ⟨hw, hb⟩ := addrRangeEnable_frame ni off ua sent hc
  unfold Switched
  simp only [wide, bank, hw, hb]

namespace Programming

theorem sent_eq (h : Programming ni offset len g left s) (n : Nat) :
    (progPass ni m source s n).sent =
      .prog (g / ni.size) (g % ni.size) (pieceData ni m source offset g n s.sent) ::
        (addrRangeEnable ni (g / ni.size) (g % ni.size) s.ua s.sent).2 := by
  simp only [progPass, h.pos_eq, posAt, Nat.add_sub_cancel' h.offset_le, pieceData]

theorem mem_cut (h : Programming ni offset len g left s) (hl : 0 < left) :
    (g, progPiece ni g left) ∈ cut (progPiece ni) offset len := by
  refine h.rest.mem ?_
  rw [cut_cons hl (progPiece_proper ni g left hl).1]
  exact List.mem_cons_self

theorem step (m : Memory) (source : Option Nat) (hs : 8 ≤ ni.sizeBits)
    (h : Programming ni offset len g left s) (hl : 0 < left) :
    progStep ni m source len s = .next (progPass ni m source s (progPiece ni g left)) ∧
      Programming ni offset len (g + progPiece ni g left) (left - progPiece ni g left)
        (progPass ni m source s (progPiece ni g left)) := by
  have hpos := h.pos_eq
  have hle := h.offset_le
  have hsum := h.sum
  obtain ⟨hpp, hple⟩ := progPiece_proper ni g left hl
  have hdone : offset + (g - offset) = g := Nat.add_sub_cancel' hle
  obtain ⟨hsel, hnext⟩ := addrRangeEnable_spec h.ready
  have hin := progPiece_inside hs g left
  have hpage := progPiece_page ni g left
  have hbank := progPiece_bank ni g left
  constructor
  · rw [progStep, if_pos (by rw [hpos]; change g - offset < len; omega), hpos]
    simp only [posAt, hdone]
    rw [show len - (g - offset) = left by omega]
    rfl
  · refine ⟨by omega, by omega, ?_, ?_, ?_, ?_, fun c => ?_, Int.natCast_nonneg _⟩
    · have hrest := h.rest
      rw [cut_cons hl hpp] at hrest
      exact (List.suffix_cons _ _).trans hrest
    · simp only [progPass, hpos, posAdvance_of_le hle hin]
    · rw [h.sent_eq]
      simp only [progPass, hpos, posAt, hdone]
      exact hnext _ (by omega)
    · rw [h.sent_eq]
      refine h.fit.enable.prog ⟨?_, ?_, ?_, hsel⟩
      · rwa [length_pieceData]
      · rwa [length_pieceData]
      · rwa [length_pieceData]
    · rw [h.sent_eq]
      by_cases hc : c = g / ni.size
      · subst hc
        rw [disturbed_iff_of_piece hin hbank hpp hle]
        exact switched_iff_of_selected hsel
      · rw [disturbed_iff_of_ne hin hc, switched_iff_of_ne hc, h.switched c]

theorem content_pass (m : Memory) (source : Option Nat)
    (h : Programming ni offset len g left s) (hl : 0 < left)
    (hr : InReach ni.addrMode (g % ni.size) (progPiece ni g left)) (x : Nat) :
    content ni m.flash (progPass ni m source s (progPiece ni g left)).sent x =
      if g ≤ x ∧ x < g + progPiece ni g left then
        content ni m.flash s.sent x &&& sourceByte ni m source s.sent (x - offset)
      else content ni m.flash s.sent x := by
  have hle := h.offset_le
  rw [h.sent_eq, content_prog (addrRangeEnable_spec h.ready).1
    (by rw [length_pieceData]; exact (progPiece_proper ni g left hl).1)
    (by rw [length_pieceData]; exact hr), content_addrRangeEnable]
  by_cases hx : g ≤ x ∧ x < g + progPiece ni g left
  · rw [dif_pos (by rw [length_pieceData]; omega), if_pos hx]
    simp only [pieceData, List.get_eq_getElem, List.getElem_map, List.getElem_range]
    rw [show g - offset + (x - g) = x - offset by omega]
  · rw [dif_neg (by rw [length_pieceData]; omega), if_neg hx]

end Programming

theorem prog_loop (r : Request) (source : Option Nat) (hs : 8 ≤ r.ni.sizeBits) (m : Memory)
    (P : Nat → Transfer → Prop)
    (h₀ : P r.offset (transferStart r))
    (hstep : ∀ g left s, Programming r.ni r.offset r.len g left s → 0 < left → P g s →
      P (g + progPiece r.ni g left) (progPass r.ni m source s (progPiece r.ni g left))) :
    ∃ s, Loop.Leads (progStep r.ni m source r.len) (transferStart r) (.ret s) ∧
      Programming r.ni r.offset r.len (r.offset + r.len) 0 s ∧ P (r.offset + r.len) s := by
  have hstart : Programming r.ni r.offset r.len r.offset r.len (transferStart r) := by
    refine ⟨Nat.le_refl _, rfl, List.suffix_refl _, by simp [posAt, transferStart],
      ready_start _ _, ?_, fun c => ?_, Int.le_refl 0⟩
    · intro t cs off data ht
      exact absurd (List.suffix_nil.mp ht) (List.cons_ne_nil _ _)
    · refine iff_of_false ?_ ?_
      · unfold Switched transferStart
        cases r.ni.addrMode <;> simp [wide, bank]
      · rintro ⟨-, x, hle, hlt, -⟩
        omega
  obtain ⟨s, hlead, hprog, hp⟩ := leads_cut (R := fun g left s =>
      Programming r.ni r.offset r.len g left s ∧ P g s) (progPiece_proper r.ni)
    (fun g left s h hl => by
      obtain ⟨hn, hp⟩ := h.1.step m source hs hl
      exact ⟨_, hn, hp, hstep g left s h.1 hl h.2⟩) ⟨hstart, h₀⟩
  refine ⟨s, hlead.trans (.one ?_), hprog, hp⟩
  rw [progStep, hprog.pos_eq, if_neg (by simp [posAt])]

end

-- ---------------------------------------------------------------------------
-- What is programmed
-- ---------------------------------------------------------------------------

def Memory.wanted (m : Memory) (source : Option Nat) (i : Nat) : UInt8 :=
  match source with
  | none => m.ram i
  | some a => m.flash (a + i)

def Memory.programmed (m : Memory) (source : Option Nat) (offset g x : Nat) : UInt8 :=
  if offset ≤ x ∧ x < g then m.flash x &&& m.wanted source (x - offset) else m.flash x

/-- Whatever there is to read from, the request is carried out: it returns 0, its range and
nothing else is programmed, and every command fits. -/
def ProgramsRight (r : ProgRequest) : Prop :=
  ∀ m : Memory, ∃ o, NorsfProg m r.source r.toRequest o ∧ o.ret = 0 ∧
    content r.ni m.flash o.sent = m.programmed r.source r.offset (r.offset + r.len) ∧
    AllFit r.ni o.sent

/-- The request passes the 32-bit test, with 3 bytes of address it stays in the first 16 MB of
each chip, and a source in the flash is shown by the window, and not yet programmed over,
when its bytes are copied. -/
structure Programmable (r : ProgRequest) : Prop where
  accepted : overflows r.ni r.offset r.len = false
  near : r.ni.addrMode = .addr3b →
    ∀ q ∈ cut (progPiece r.ni) r.offset r.len, q.1 % r.ni.size + q.2 ≤ megabyte16
  shown : ∀ a, r.source = some a → ∀ q ∈ cut (progPiece r.ni) r.offset r.len, ∀ i < q.2,
    ¬Disturbed r.ni r.offset q.1 ((a + (q.1 - r.offset + i)) / r.ni.size)
  kept : ∀ a, r.source = some a → ∀ q ∈ cut (progPiece r.ni) r.offset r.len, ∀ i < q.2,
    ¬(r.offset ≤ a + (q.1 - r.offset + i) ∧ a + (q.1 - r.offset + i) < q.1)

theorem windowPlace_of_not_switched (h : ¬Switched ni sent (w / ni.size))
    (hw : w < ni.windowSize) : windowPlace ni sent w = some w := by
  unfold Switched at h
  unfold windowPlace
  cases hm : ni.addrMode with
  | addr3b => rfl
  | cmd4b => rfl
  | mode4b =>
    rw [hm] at h
    simp only [not_and, Bool.not_eq_true] at h ⊢
    rw [if_neg]
    simpa using h
  | ear4b =>
    rw [hm] at h
    simp only [ne_eq, not_not] at h
    have hw : w < megabyte16 := by simpa [Info.windowSize, hm] using hw
    have := Nat.mod_le w ni.size
    simp only [h, Nat.zero_mul, Nat.zero_add]
    rw [Nat.mod_eq_of_lt (Nat.lt_of_le_of_lt this hw), Nat.div_add_mod']

theorem progPiece_inReach {ni : Info}
    (h : ni.addrMode = .addr3b → g % ni.size + progPiece ni g left ≤ megabyte16) :
    InReach ni.addrMode (g % ni.size) (progPiece ni g left) := by
  unfold InReach
  cases hm : ni.addrMode with
  | addr3b => exact h hm
  | cmd4b => trivial
  | mode4b => trivial
  | ear4b => exact progPiece_bank ni g left

section
variable {r : ProgRequest} {m : Memory}

theorem sourceByte_eq (hr : Programmable r) (h : Programming r.ni r.offset r.len g left s)
    (hl : 0 < left)
    (hc : content r.ni m.flash s.sent = m.programmed r.source r.offset g)
    (hx : g ≤ x) (hxn : x < g + progPiece r.ni g left) :
    sourceByte r.ni m r.source s.sent (x - r.offset) = m.wanted r.source (x - r.offset) := by
  have hq := h.mem_cut hl
  have hle := h.offset_le
  have hb := cut_bounds (progPiece_proper r.ni) hq
  unfold sourceByte Memory.wanted
  cases hs : r.source with
  | none => rfl
  | some a =>
    have hi : x - r.offset = g - r.offset + (x - g) := by omega
    have hshown := hr.shown a hs _ hq (x - g) (by dsimp only; omega)
    have hkept := hr.kept a hs _ hq (x - g) (by dsimp only; omega)
    have hw := (r.source_inside a hs).1
    rw [← hi] at hshown hkept
    dsimp only at hshown hkept hb ⊢
    rw [← h.switched] at hshown
    rw [windowPlace_of_not_switched hshown (by omega), hc]
    exact if_neg hkept

theorem norsfProg_of_leads (ho : overflows r.ni r.offset r.len = false)
    (hs : Loop.Leads (progStep r.ni m r.source r.len) (transferStart r.toRequest) (.ret s)) :
    NorsfProg m r.source r.toRequest o ↔
      o = ⟨t4Epilogue s.res, addrRangeRestore r.ni s.sent⟩ := by
  simp only [NorsfProg, ho, Bool.false_eq_true, ↓reduceIte]
  constructor
  · rintro ⟨s', hs', rfl⟩
    cases hs.unique hs' rfl rfl
    rfl
  · rintro rfl
    exact ⟨s, hs, rfl⟩

theorem programsRight_of_programmable (hr : Programmable r) : ProgramsRight r := by
  intro m
  obtain ⟨s, hlead, hs, hc⟩ := prog_loop r.toRequest r.source r.pages m
    (fun g s => content r.ni m.flash s.sent = m.programmed r.source r.offset g)
    (by
      funext x
      exact (if_neg (by omega)).symm)
    (fun g left s h hl hc => by
      funext x
      have hle := h.offset_le
      rw [h.content_pass m r.source hl (progPiece_inReach fun hm => hr.near hm _ (h.mem_cut hl))]
      split
      · rename_i hx
        rw [sourceByte_eq hr h hl hc hx.1 hx.2, hc, Memory.programmed, Memory.programmed,
          if_neg (by omega), if_pos (by omega)]
      · rename_i hx
        rw [hc, Memory.programmed, Memory.programmed]
        exact if_congr (by omega) rfl rfl)
  refine ⟨_, (norsfProg_of_leads hr.accepted hlead).mpr rfl, ?_, ?_, hs.fit.restore⟩
  · simp [t4Epilogue, Int.not_lt.mpr hs.res_nonneg]
  · rw [content_addrRangeRestore, hc]

-- ---------------------------------------------------------------------------
-- Where it fails
-- ---------------------------------------------------------------------------

theorem ProgramsRight.content_eq (h : ProgramsRight r)
    (ho : overflows r.ni r.offset r.len = false)
    (hs : Loop.Leads (progStep r.ni m r.source r.len) (transferStart r.toRequest) (.ret s))
    (x : Nat) :
    content r.ni m.flash s.sent x = m.programmed r.source r.offset (r.offset + r.len) x := by
  obtain ⟨o, hprog, -, hc, -⟩ := h m
  rw [norsfProg_of_leads ho hs] at hprog
  subst hprog
  rw [content_addrRangeRestore] at hc
  rw [hc]

theorem ProgramsRight.accepted (h : ProgramsRight r) :
    overflows r.ni r.offset r.len = false := by
  by_contra ho
  obtain ⟨o, hprog, hret, -⟩ := h ⟨fun _ => 0, fun _ => 0, fun _ => 0⟩
  simp only [NorsfProg, Bool.not_eq_false] at hprog ho
  rw [if_pos ho] at hprog
  subst hprog
  simp [t4Epilogue, lenOverflow] at hret

def zeroAt (g x : Nat) : UInt8 := if x = g then 0 else 0xff

theorem content_far (hm : ni.addrMode = .addr3b) (hx : megabyte16 ≤ x % ni.size) :
    content ni flash (.prog cs off data :: t) x = content ni flash t x := by
  refine program_frame fun i _ => ?_
  have hlt := Nat.mod_lt (off + i) (show 0 < megabyte16 by decide)
  have hle := Nat.mod_le ((off + i) % megabyte16) ni.size
  simp only [place, hm, Option.map_some, ne_eq, Option.some.injEq]
  rintro rfl
  rw [Nat.mul_add_mod'] at hx
  omega

theorem piece_inside_chip (hq : q ∈ cut (progPiece r.ni) r.offset r.len) :
    q.1 % r.ni.size + q.2 ≤ r.ni.size := by
  obtain ⟨l, hl⟩ := exists_of_mem_cut hq
  rw [hl]
  exact progPiece_inside r.pages q.1 l

theorem ProgramsRight.near (h : ProgramsRight r) (hm : r.ni.addrMode = .addr3b)
    (hq : q ∈ cut (progPiece r.ni) r.offset r.len) : q.1 % r.ni.size + q.2 ≤ megabyte16 := by
  by_contra hn
  obtain ⟨hge, hpos, hle⟩ := cut_bounds (progPiece_proper r.ni) hq
  -- The last byte of the piece keeps its bits though the source has none set.
  obtain ⟨x, hx⟩ : ∃ x, x = q.1 + (q.2 - 1) := ⟨_, rfl⟩
  have hfar : megabyte16 ≤ x % r.ni.size := by
    rw [(piece_chip (piece_inside_chip hq) (show q.1 ≤ x by omega) (by omega)).2]
    omega
  let m : Memory := ⟨fun y => match r.source with
    | some a => zeroAt (a + (x - r.offset)) y
    | none => 0xff, fun _ => 0, fun _ => 0⟩
  have hwanted : m.wanted r.source (x - r.offset) = 0 := by
    cases hs : r.source with
    | none => rfl
    | some a => simp [Memory.wanted, m, hs, zeroAt]
  have hkept : m.flash x = 0xff := by
    cases hs : r.source with
    | none => simp [m, hs]
    | some a =>
      have hw := (r.source_inside a hs).1
      have hmod := Nat.mod_le x r.ni.size
      simp only [Info.windowSize, hm, reduceCtorEq, and_false, or_self, ↓reduceIte] at hw
      simp only [m, hs, zeroAt]
      rw [if_neg (by omega)]
  obtain ⟨s, hlead, -, hc⟩ := prog_loop r.toRequest r.source r.pages m
    (fun _ s => content r.ni m.flash s.sent x = 0xff)
    hkept (fun g left s h _ hc => by
      rw [h.sent_eq, content_far hm hfar, content_addrRangeEnable, hc])
  rw [h.content_eq h.accepted hlead, Memory.programmed, if_pos (by omega), hwanted,
    UInt8.and_zero] at hc
  cases hc

theorem piece_eq (h : Programming r.ni r.offset r.len g left s) (hl : 0 < left)
    (hq : q ∈ cut (progPiece r.ni) r.offset r.len) (hx : q.1 ≤ x) (hxq : x < q.1 + q.2)
    (hg : g ≤ x) (hxg : x < g + progPiece r.ni g left) : q = (g, progPiece r.ni g left) := by
  rcases cut_disjoint (progPiece_proper r.ni) hq (h.mem_cut hl) with he | hd | hd
  · exact he
  · dsimp only at hd
    omega
  · dsimp only at hd
    omega

/-- What ends up at place `x` of piece `q`: the byte of the source as the window shows it when
the piece is copied. `P` is what the pieces before it keep. -/
theorem final_at (m : Memory) (P : Nat → Transfer → Prop)
    (hnear : r.ni.addrMode = .addr3b →
      ∀ q ∈ cut (progPiece r.ni) r.offset r.len, q.1 % r.ni.size + q.2 ≤ megabyte16)
    (hq : q ∈ cut (progPiece r.ni) r.offset r.len) (hx : q.1 ≤ x) (hxq : x < q.1 + q.2)
    (h₀ : P r.offset (transferStart r.toRequest))
    (hstep : ∀ g left s, Programming r.ni r.offset r.len g left s → 0 < left →
      g + progPiece r.ni g left ≤ q.1 → P g s →
      P (g + progPiece r.ni g left) (progPass r.ni m r.source s (progPiece r.ni g left))) :
    ∃ s, Loop.Leads (progStep r.ni m r.source r.len) (transferStart r.toRequest) (.ret s) ∧
      ∃ left t, Programming r.ni r.offset r.len q.1 left t ∧ P q.1 t ∧
        content r.ni m.flash s.sent x =
          m.flash x &&& sourceByte r.ni m r.source t.sent (x - r.offset) := by
  have hqb := cut_bounds (progPiece_proper r.ni) hq
  obtain ⟨s, hlead, -, -, -, hc⟩ := prog_loop r.toRequest r.source r.pages m (fun g s =>
      (g ≤ q.1 → P g s) ∧
      (g ≤ x → content r.ni m.flash s.sent x = m.flash x) ∧
      (x < g → ∃ left t, Programming r.ni r.offset r.len q.1 left t ∧ P q.1 t ∧
        content r.ni m.flash s.sent x =
          m.flash x &&& sourceByte r.ni m r.source t.sent (x - r.offset)))
    ⟨fun _ => h₀, fun _ => rfl, fun hlt => by omega⟩
    (fun g left s h hl ⟨hP, hframe, hdone⟩ => by
      have hpass := h.content_pass m r.source hl
        (progPiece_inReach fun hm => hnear hm _ (h.mem_cut hl))
      refine ⟨fun hle => hstep g left s h hl hle (hP (by omega)), fun hgx => ?_, fun hlt => ?_⟩
      · rw [hpass, if_neg (by omega)]
        exact hframe (by omega)
      · by_cases hgx : x < g
        · obtain ⟨l, t, ht, hPt, hst⟩ := hdone hgx
          exact ⟨l, t, ht, hPt, by rw [hpass, if_neg (by omega), hst]⟩
        · have he := piece_eq h hl hq hx hxq (by omega) hlt
          have hg : q.1 = g := by rw [he]
          refine ⟨left, s, by rw [hg]; exact h, by rw [hg]; exact hP (by omega), ?_⟩
          rw [hpass, if_pos (by omega), hframe (by omega)])
  exact ⟨s, hlead, hc (by omega)⟩

theorem windowPlace_ear (sent : List Command) (hm : ni.addrMode = .ear4b) (hw : w < megabyte16) :
    ∃ v, windowPlace ni sent w = some v ∧
      (bank sent (w / ni.size) = 0 ∧ v = w ∨ bank sent (w / ni.size) ≠ 0 ∧ megabyte16 ≤ v) := by
  simp only [windowPlace, hm, Option.some.injEq, exists_eq_left']
  by_cases hb : bank sent (w / ni.size) = 0
  · left
    have := Nat.mod_le w ni.size
    rw [hb, Nat.zero_mul, Nat.zero_add, Nat.mod_eq_of_lt (Nat.lt_of_le_of_lt this hw),
      Nat.div_add_mod']
    exact ⟨rfl, rfl⟩
  · right
    have := Nat.le_mul_of_pos_left megabyte16 (Nat.pos_of_ne_zero hb)
    exact ⟨hb, by omega⟩

/-- With an extended address register the byte to be copied is read only while its bank is
selected; any other byte has all bits set. -/
theorem sourceByte_ear {sent : List Command} (hm : r.ni.addrMode = .ear4b)
    (hs : r.source = some a)
    (hc : ∀ y, y ≠ a + (x - r.offset) → content r.ni m.flash sent y = 0xff)
    (hx : r.offset ≤ x) (hxl : x < r.offset + r.len)
    (hy : r.offset ≤ y) (hyl : y < r.offset + r.len)
    (hyx : y ≠ x ∨ bank sent ((a + (x - r.offset)) / r.ni.size) ≠ 0) :
    sourceByte r.ni m r.source sent (y - r.offset) = 0xff := by
  have hin := (r.source_inside a hs).1
  have hwin : r.ni.windowSize = megabyte16 := by simp [Info.windowSize, hm]
  obtain ⟨v, hv, hcase⟩ := windowPlace_ear sent hm (show a + (y - r.offset) < megabyte16 by omega)
  simp only [sourceByte, hs, hv]
  refine hc v ?_
  rcases hcase with ⟨hb, rfl⟩ | ⟨hb, hv⟩
  · rcases hyx with hyx | hyx
    · omega
    · rintro he
      exact hyx (he ▸ hb)
  · omega

theorem ProgramsRight.shown_ear (h : ProgramsRight r) (hm : r.ni.addrMode = .ear4b)
    (hs : r.source = some a) (hq : q ∈ cut (progPiece r.ni) r.offset r.len)
    (hx : q.1 ≤ x) (hxq : x < q.1 + q.2) :
    ¬Disturbed r.ni r.offset q.1 ((a + (x - r.offset)) / r.ni.size) := by
  intro hd
  have hqb := cut_bounds (progPiece_proper r.ni) hq
  have hin := (r.source_inside a hs).1
  have hwin : r.ni.windowSize = megabyte16 := by simp [Info.windowSize, hm]
  have hfar : megabyte16 ≤ x := by
    obtain ⟨-, y, -, hlt, -, hy⟩ := hd
    have := hy hm
    have := Nat.mod_le y r.ni.size
    omega
  have hn3 : r.ni.addrMode ≠ .addr3b := by simp [hm]
  obtain ⟨w, hw⟩ : ∃ w, w = a + (x - r.offset) := ⟨_, rfl⟩
  -- All bits are set but in the byte to be copied, which the window does not show.
  let m : Memory := ⟨zeroAt w, fun _ => 0, fun _ => 0⟩
  obtain ⟨s, hlead, left, t, ht, hP, hc⟩ := final_at m
    (fun _ s => ∀ y, y ≠ w → content r.ni m.flash s.sent y = 0xff)
    (fun hm' => absurd hm' hn3) hq hx hxq
    (fun y hy => if_neg hy)
    (fun g left s h hl hgq hP y hy => by
      have hle := h.offset_le
      rw [h.content_pass m r.source hl (progPiece_inReach fun hm' => absurd hm' hn3), hP y hy]
      split
      · rw [sourceByte_ear hm hs (hw ▸ hP) (by omega) (by omega) (by omega) (by omega)
          (.inl (by omega))]
        rfl
      · rfl)
  have hbank : bank t.sent ((a + (x - r.offset)) / r.ni.size) ≠ 0 := by
    have := (ht.switched ((a + (x - r.offset)) / r.ni.size)).mpr hd
    simpa [Switched, hm] using this
  rw [sourceByte_ear hm hs (hw ▸ hP) (by omega) (by omega) (by omega) (by omega) (.inr hbank),
    h.content_eq h.accepted hlead, Memory.programmed, if_pos (by omega)] at hc
  simp only [Memory.wanted, hs, ← hw, m, zeroAt, ↓reduceIte, UInt8.and_zero] at hc
  rw [if_neg (by omega)] at hc
  cases hc

theorem ProgramsRight.shown_mode (h : ProgramsRight r) (hm : r.ni.addrMode = .mode4b)
    (hs : r.source = some a) (hq : q ∈ cut (progPiece r.ni) r.offset r.len)
    (hx : q.1 ≤ x) (hxq : x < q.1 + q.2) :
    ¬Disturbed r.ni r.offset q.1 ((a + (x - r.offset)) / r.ni.size) := by
  intro hd
  have hqb := cut_bounds (progPiece_proper r.ni) hq
  let m : Memory := ⟨fun _ => 0xff, fun _ => 0, fun _ => 0⟩
  obtain ⟨s, hlead, left, t, ht, -, hc⟩ := final_at m (fun _ _ => True)
    (fun hm' => by simp [hm] at hm') hq hx hxq trivial (fun _ _ _ _ _ _ _ => trivial)
  have hsw := (ht.switched ((a + (x - r.offset)) / r.ni.size)).mpr hd
  simp only [Switched, hm] at hsw
  rw [h.content_eq h.accepted hlead, Memory.programmed, if_pos (by omega)] at hc
  simp [Memory.wanted, hs, sourceByte, windowPlace, hm, hsw, m] at hc

theorem ProgramsRight.shown (h : ProgramsRight r) (hs : r.source = some a)
    (hq : q ∈ cut (progPiece r.ni) r.offset r.len) (hx : q.1 ≤ x) (hxq : x < q.1 + q.2) :
    ¬Disturbed r.ni r.offset q.1 ((a + (x - r.offset)) / r.ni.size) := by
  intro hd
  have hdyn := hd.1
  simp only [Info.dyn4bAddrSwitch, Bool.or_eq_true, beq_iff_eq, Bool.and_eq_true] at hdyn
  rcases hdyn with hm | ⟨-, hm⟩
  · exact h.shown_ear hm hs hq hx hxq hd
  · exact h.shown_mode hm hs hq hx hxq hd

theorem ProgramsRight.sourceByte_content (h : ProgramsRight r) (hs : r.source = some a)
    (hp : Programming r.ni r.offset r.len g left s) (hl : 0 < left)
    (hy : g ≤ y) (hyg : y < g + progPiece r.ni g left) :
    sourceByte r.ni m r.source s.sent (y - r.offset) =
      content r.ni m.flash s.sent (a + (y - r.offset)) := by
  have hin := (r.source_inside a hs).1
  have hle := hp.offset_le
  have hb := cut_bounds (progPiece_proper r.ni) (hp.mem_cut hl)
  have hshown := h.shown hs (hp.mem_cut hl) hy hyg
  dsimp only at hshown hb
  rw [← hp.switched] at hshown
  simp only [sourceByte, hs, windowPlace_of_not_switched hshown (by omega)]

theorem ProgramsRight.kept (h : ProgramsRight r) (hs : r.source = some a)
    (hq : q ∈ cut (progPiece r.ni) r.offset r.len) (hx : q.1 ≤ x) (hxq : x < q.1 + q.2) :
    ¬(r.offset ≤ a + (x - r.offset) ∧ a + (x - r.offset) < q.1) := by
  intro hover
  have hqb := cut_bounds (progPiece_proper r.ni) hq
  obtain ⟨w, hw⟩ : ∃ w, w = a + (x - r.offset) := ⟨_, rfl⟩
  rw [← hw] at hover
  let m : Memory := ⟨zeroAt (a + (w - r.offset)), fun _ => 0, fun _ => 0⟩
  obtain ⟨s, hlead, left, t, ht, ⟨-, hP⟩, hc⟩ := final_at m
    (fun g s => (∀ y, m.flash y = 0 → content r.ni m.flash s.sent y = 0) ∧
      ∀ y, r.offset ≤ y → y < g → m.flash (a + (y - r.offset)) = 0 →
        content r.ni m.flash s.sent y = 0)
    (fun hm _ hq => h.near hm hq) hq hx hxq
    ⟨fun _ hy => hy, fun y _ _ => by omega⟩
    (fun g left s hp hl _ ⟨hzero, hP⟩ => by
      have hpass := hp.content_pass m r.source hl
        (progPiece_inReach fun hm => h.near hm (hp.mem_cut hl))
      refine ⟨fun y hy => ?_, fun y hoy hyg hy => ?_⟩
      · rw [hpass, hzero y hy]
        split
        · exact UInt8.zero_and
        · rfl
      · rw [hpass]
        split
        next hyp =>
          rw [h.sourceByte_content hs hp hl hyp.1 hyp.2, hzero _ hy, UInt8.and_zero]
        next => exact hP y hoy (by omega) hy)
  have hl : 0 < left := by
    have := ht.sum
    omega
  have hwide : x < q.1 + progPiece r.ni q.1 left := by
    have hpos := (progPiece_proper r.ni q.1 left hl).1
    have he := piece_eq ht hl hq (Nat.le_refl _) (by omega) (Nat.le_refl _) (by omega)
    rw [he] at hxq
    exact hxq
  rw [h.sourceByte_content hs ht hl hx hwide, ← hw, hP w hover.1 hover.2 (if_pos rfl),
    h.content_eq h.accepted hlead, Memory.programmed, if_pos (by omega), UInt8.and_zero] at hc
  simp only [Memory.wanted, hs, ← hw, m, zeroAt] at hc
  rw [if_neg (by omega), if_neg (by omega)] at hc
  cases hc

theorem piece_index (hq : q ∈ cut (progPiece r.ni) r.offset r.len) (i : Nat) :
    q.1 - r.offset + i = q.1 + i - r.offset := by
  have := (cut_bounds (progPiece_proper r.ni) hq).1
  omega

theorem ProgramsRight.programmable (h : ProgramsRight r) : Programmable r where
  accepted := h.accepted
  near hm _ hq := h.near hm hq
  shown a hs q hq i hi := by
    rw [piece_index hq]
    exact h.shown hs hq (Nat.le_add_right _ _) (Nat.add_lt_add_left hi _)
  kept a hs q hq i hi := by
    rw [piece_index hq]
    exact h.kept hs hq (Nat.le_add_right _ _) (Nat.add_lt_add_left hi _)

theorem norsfProg_right_iff (r : ProgRequest) : ProgramsRight r ↔ Programmable r :=
  ⟨fun h => h.programmable, programsRight_of_programmable⟩

def wideChip : Info := chip32 .mode4b

def flashToFlash : ProgRequest where
  ni := wideChip
  offset := 16 * 1024 * 1024
  len := 512
  offset_lt := by decide
  len_lt := by decide
  source := some 0
  pages := by decide
  inside := by decide
  source_inside := by
    rintro a ha
    cases ha
    exact ⟨by decide, by decide⟩

/-- The second page is not what the source holds. -/
theorem norsfProg_copies_noise : ¬ProgramsRight flashToFlash := by
  intro h
  have hq : (16 * 1024 * 1024 + 256, 256) ∈
      cut (progPiece wideChip) (16 * 1024 * 1024) 512 := by
    rw [cut_cons (by decide) (by decide)]
    refine List.mem_cons_of_mem _ ?_
    rw [show progPiece wideChip (16 * 1024 * 1024) 512 = 256 by decide,
      cut_cons (by decide) (by decide)]
    exact List.mem_cons_self
  refine h.shown rfl hq (Nat.le_refl _) (by decide) ⟨by decide, 16 * 1024 * 1024, ?_⟩
  exact ⟨Nat.le_refl _, by decide, by decide, by decide⟩

end

end BismarckPreloader.Nor
