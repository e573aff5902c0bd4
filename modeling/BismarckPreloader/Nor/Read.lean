import BismarckPreloader.Nor.Device

/-!
# Reading the NOR flash

Model of `norsf_read`. A request that ends in the first 16 MB is copied from the
memory-mapped window. Any other one is read in pieces, each as long as the length field of a
transfer allows and inside of one chip.
-/

namespace BismarckPreloader.Nor

open Pieces

structure Board where
  flash : Nat → UInt8
  window : Nat → UInt8
  noise : Nat → UInt8
  window_eq : ∀ g < megabyte16, window g = flash g

def readUnit : Nat := 2 ^ 10 - 1

/-- `arch_read`, byte after byte at the place each address means to the chip. -/
def archRead (b : Board) (ni : Info) (sent : List Command) (cs off len : Nat) : List UInt8 :=
  (List.range len).map fun i => match place ni sent cs (off + i) with
    | some a => b.flash (cs * ni.size + a)
    | none => b.noise i

structure ReadState where
  pos : Pos
  ua : UsableAddr
  sent : List Command
  buf : List UInt8
  res : Int

/-- A pass of the loop of `norsf_read`. -/
def readStep (b : Board) (ni : Info) (len : Nat) (s : ReadState) :
    Outcome ReadState ReadState Empty :=
  if s.pos.doneB < len then
    let opLen := min (min (len - s.pos.doneB) readUnit) (ni.size - s.pos.nextOffset)
    let e := addrRangeEnable ni s.pos.cs s.pos.nextOffset s.ua s.sent
    let data := archRead b ni e.2 s.pos.cs s.pos.nextOffset opLen
    .next ⟨posAdvance ni s.pos opLen, e.1, .read s.pos.cs s.pos.nextOffset opLen :: e.2,
      s.buf ++ data, opLen⟩
  else .ret s

structure ReadResult where
  ret : Nat
  sent : List Command
  buf : List UInt8

/-- `norsf_read` comes to its end with `o`. -/
def NorsfRead (b : Board) (r : Request) (o : ReadResult) : Prop :=
  if overflows r.ni r.offset r.len then o = ⟨t4Epilogue lenOverflow, [], []⟩
  else if u32 (r.offset + r.len) ≤ megabyte16 then
    o = ⟨t4Epilogue (s32 r.len), [], (List.range' r.offset r.len).map b.window⟩
  else ∃ s, Loop.Leads (readStep b r.ni r.len)
      ⟨⟨r.offset / r.ni.size, r.offset % r.ni.size, 0⟩, ⟨0, 0⟩, [], [], 0⟩ (.ret s) ∧
    o = ⟨t4Epilogue s.res, addrRangeRestore r.ni s.sent, s.buf⟩

def readPiece (ni : Info) (g left : Nat) : Nat :=
  min (min left readUnit) (ni.size - g % ni.size)

theorem readPiece_proper (ni : Info) : Proper (readPiece ni) := by
  intro g left hl
  have := Nat.mod_lt g ni.size_pos
  unfold readPiece readUnit
  omega

theorem readPiece_inside (ni : Info) (g left : Nat) :
    g % ni.size + readPiece ni g left ≤ ni.size := by
  have := Nat.mod_lt g ni.size_pos
  unfold readPiece
  omega

theorem readPiece_le (ni : Info) (g left : Nat) : readPiece ni g left ≤ 2 ^ 31 := by
  unfold readPiece readUnit
  omega

def pieceBytes (b : Board) (ni : Info) (q : Nat × Nat) : List UInt8 :=
  (List.range q.2).map fun i =>
    b.flash (q.1 / ni.size * ni.size + placeOf ni.addrMode (q.1 % ni.size) (q.1 % ni.size + i))

theorem length_pieceBytes : (pieceBytes b ni q).length = q.2 := by
  simp [pieceBytes]

theorem archRead_of_selected (h : Selected ni sent (g / ni.size) (g % ni.size)) (n : Nat) :
    archRead b ni sent (g / ni.size) (g % ni.size) n = pieceBytes b ni (g, n) := by
  unfold archRead pieceBytes
  simp only [place_of_selected h]

/-- The states of the loop before the piece at `g`: what the buffer has and what is still to
come make up `all`. -/
structure Reading (b : Board) (ni : Info) (offset len : Nat) (all : List UInt8)
    (g left : Nat) (s : ReadState) : Prop where
  offset_le : offset ≤ g
  sum : g + left = offset + len
  pos_eq : s.pos = posAt ni offset (g - offset)
  ready : Ready ni s.ua s.sent g
  buf_eq : s.buf ++ (cut (readPiece ni) g left).flatMap (pieceBytes b ni) = all
  res_nonneg : 0 ≤ s.res
  inside : offset + len ≤ ni.capacity → AllInside ni s.sent

theorem Reading.step (h : Reading b ni offset len all g left s) (hl : 0 < left) :
    ∃ s', readStep b ni len s = .next s' ∧
      Reading b ni offset len all (g + readPiece ni g left) (left - readPiece ni g left) s' := by
  obtain ⟨hle, hsum, hpos, hready, hbuf, -, hinside⟩ := h
  obtain ⟨hpp, hple⟩ := readPiece_proper ni g left hl
  have hdone : offset + (g - offset) = g := by omega
  obtain ⟨hsel, hnext⟩ := addrRangeEnable_spec hready
  have hlen : min (min (len - (g - offset)) readUnit) (ni.size - g % ni.size) =
      readPiece ni g left := by
    rw [show len - (g - offset) = left by omega]
    rfl
  rw [cut_cons hl hpp, List.flatMap_cons] at hbuf
  refine ⟨_, by rw [readStep, if_pos (by rw [hpos]; change g - offset < len; omega)], ?_⟩
  simp only [hpos, posAt, hdone, hlen]
  refine ⟨by omega, by omega, ?_, hnext _ (readPiece_le ni g left), ?_, Int.natCast_nonneg _,
    fun hcap => ?_⟩
  · have hadvance := posAdvance_of_le hle (readPiece_inside ni g left)
    rwa [posAt, hdone] at hadvance
  · rw [archRead_of_selected hsel, List.append_assoc]
    exact hbuf
  · have hcs : g / ni.size < ni.numChips := chip_lt (by omega)
    exact allInside_cons.mpr ⟨⟨hcs, readPiece_inside ni g left⟩, (hinside hcap).enable hcs⟩

theorem read_loop (b : Board) (ni : Info) (offset len : Nat) :
    ∃ s, Loop.Leads (readStep b ni len)
        ⟨⟨offset / ni.size, offset % ni.size, 0⟩, ⟨0, 0⟩, [], [], 0⟩ (.ret s) ∧
      s.buf = (cut (readPiece ni) offset len).flatMap (pieceBytes b ni) ∧ 0 ≤ s.res ∧
      (offset + len ≤ ni.capacity → AllInside ni s.sent) := by
  have h₀ : Reading b ni offset len ((cut (readPiece ni) offset len).flatMap (pieceBytes b ni))
      offset len ⟨⟨offset / ni.size, offset % ni.size, 0⟩, ⟨0, 0⟩, [], [], 0⟩ :=
    ⟨Nat.le_refl _, rfl, by simp [posAt], ready_start ni offset, rfl, Int.le_refl 0,
      fun _ _ h => nomatch h⟩
  obtain ⟨s, hlead, hs⟩ := leads_cut (readPiece_proper ni) (fun _ _ _ => Reading.step) h₀
  refine ⟨s, hlead.trans (.one ?_), ?_, hs.res_nonneg, hs.inside⟩
  · rw [readStep, hs.pos_eq, if_neg (by simp [posAt])]
  · rw [← hs.buf_eq, cut_nil (by simp)]
    simp

theorem pieceBytes_of_inReach (hn : 0 < n) (h : InReach ni.addrMode (g % ni.size) n) :
    pieceBytes b ni (g, n) = (List.range' g n).map b.flash := by
  unfold pieceBytes
  rw [List.range'_eq_map_range, List.map_map]
  refine List.map_congr_left fun i hi => ?_
  rw [(inReach_iff hn).mp h i (List.mem_range.mp hi), ← Nat.add_assoc, Nat.div_add_mod']
  rfl

structure ReadRequest extends Request where
  inside : offset + len ≤ ni.capacity

def ReadsRight (r : ReadRequest) : Prop :=
  ∀ b : Board, ∃ o, NorsfRead b r.toRequest o ∧
    (o.ret = 0 → o.buf = (List.range' r.offset r.len).map b.flash)

/-- The request is refused, or it is copied from the window and ends there also without the
wrap of the 32-bit sum, or no piece of it runs over what its address reaches. -/
def Readable (r : ReadRequest) : Prop :=
  overflows r.ni r.offset r.len = true ∨
    if u32 (r.offset + r.len) ≤ megabyte16 then r.offset + r.len ≤ megabyte16 ∨ 2 ^ 31 ≤ r.len
    else ∀ q ∈ cut (readPiece r.ni) r.offset r.len, InReach r.ni.addrMode (q.1 % r.ni.size) q.2

theorem readsRight_of_readable {r : ReadRequest} (h : Readable r) : ReadsRight r := by
  intro b
  unfold NorsfRead
  by_cases ho : overflows r.ni r.offset r.len = true
  · simp only [ho, ↓reduceIte]
    exact ⟨_, rfl, by simp [t4Epilogue, lenOverflow]⟩
  · have h := h.resolve_left ho
    simp only [ho, Bool.false_eq_true, ↓reduceIte]
    split at h
    · rename_i hw
      simp only [hw, ↓reduceIte]
      refine ⟨_, rfl, fun hret => ?_⟩
      rcases h with h | h
      · refine List.map_congr_left fun g hg => b.window_eq g ?_
        rw [List.mem_range'_1] at hg
        omega
      · have hl := r.len_lt
        have : s32 r.len < 0 := by
          unfold s32
          rw [if_neg (by omega)]
          omega
        simp [t4Epilogue, this] at hret
    · rename_i hw
      simp only [hw, ↓reduceIte]
      obtain ⟨s, hs, hbuf, -⟩ := read_loop b r.ni r.offset r.len
      refine ⟨_, ⟨s, hs, rfl⟩, fun _ => ?_⟩
      rw [hbuf, ← flatMap_cut (readPiece_proper r.ni), List.map_flatMap]
      refine List.flatMap_congr fun q hq => ?_
      exact pieceBytes_of_inReach (cut_bounds (readPiece_proper r.ni) hq).2.1 (h q hq)

def oneByte (g : Nat) : Nat → UInt8 := fun g' => if g' = g then 1 else 0

theorem inReach_of_readsRight {r : ReadRequest} (h : ReadsRight r)
    (ho : overflows r.ni r.offset r.len = false)
    (hw : ¬u32 (r.offset + r.len) ≤ megabyte16) (hq : q ∈ cut (readPiece r.ni) r.offset r.len) :
    InReach r.ni.addrMode (q.1 % r.ni.size) q.2 := by
  obtain ⟨hge, hn, hle⟩ := cut_bounds (readPiece_proper r.ni) hq
  refine (inReach_iff hn).mpr fun i hi => ?_
  let b : Board := ⟨oneByte (q.1 + i), oneByte (q.1 + i), fun _ => 0, fun _ _ => rfl⟩
  obtain ⟨o, hread, hbuf⟩ := h b
  obtain ⟨s, hs, hsbuf, hres, -⟩ := read_loop b r.ni r.offset r.len
  simp only [NorsfRead, ho, Bool.false_eq_true, hw, ↓reduceIte] at hread
  obtain ⟨s', hs', rfl⟩ := hread
  cases Loop.Leads.unique hs hs' rfl rfl
  have hbuf := hbuf (by simp [t4Epilogue, Int.not_lt.mpr hres])
  rw [hsbuf] at hbuf
  have hidx := congrArg (·[q.1 - r.offset + i]?) hbuf
  dsimp only at hidx
  rw [getElem?_flatMap_cut (readPiece_proper r.ni) (fun _ => length_pieceBytes) hq hi] at hidx
  have hlt : q.1 - r.offset + i < r.len := by omega
  have hplace : r.offset + (q.1 - r.offset + i) = q.1 + i := by omega
  simp only [pieceBytes, List.getElem?_map, List.getElem?_range hi, Option.map_some,
    List.getElem?_range' hlt, Nat.one_mul, hplace, b, oneByte, ↓reduceIte, Option.some.injEq]
    at hidx
  have hdm := Nat.div_add_mod' q.1 r.ni.size
  split at hidx
  · omega
  · cases hidx

theorem le_of_readsRight {r : ReadRequest} (h : ReadsRight r)
    (ho : overflows r.ni r.offset r.len = false) (hw : u32 (r.offset + r.len) ≤ megabyte16) :
    r.offset + r.len ≤ megabyte16 ∨ 2 ^ 31 ≤ r.len := by
  by_contra hn
  simp only [not_or, Nat.not_le] at hn
  let b : Board := ⟨fun _ => 0, fun g => if g < megabyte16 then 0 else 1, fun _ => 0,
    fun g hg => by simp [hg]⟩
  obtain ⟨o, hread, hbuf⟩ := h b
  simp only [NorsfRead, ho, Bool.false_eq_true, hw, ↓reduceIte] at hread
  subst hread
  have hret : ¬s32 r.len < 0 := by
    unfold s32
    rw [if_pos (by omega)]
    omega
  have hbuf := hbuf (by simp [t4Epilogue, hret])
  have hpos : 0 < r.len := by
    have := r.offset_lt
    unfold u32 megabyte16 at hw
    unfold megabyte16 at hn
    omega
  have hidx := congrArg (·[r.len - 1]?) hbuf
  simp only [List.getElem?_map, List.getElem?_range' (show r.len - 1 < r.len by omega),
    Option.map_some, b] at hidx
  rw [if_neg (by omega)] at hidx
  cases hidx

theorem norsfRead_right_iff (r : ReadRequest) : ReadsRight r ↔ Readable r := by
  refine ⟨fun h => ?_, readsRight_of_readable⟩
  by_cases ho : overflows r.ni r.offset r.len = true
  · exact .inl ho
  · have ho : overflows r.ni r.offset r.len = false := by simpa using ho
    refine .inr ?_
    split
    · rename_i hw
      exact le_of_readsRight h ho hw
    · rename_i hw
      exact fun q hq => inReach_of_readsRight h ho hw hq

def earChip : Info := chip32 .ear4b

def earCrossing : ReadRequest where
  ni := earChip
  offset := 16 * 1024 * 1024 - 1
  len := 2
  offset_lt := by decide
  len_lt := by decide
  inside := by decide

/-- The second byte is the first of the wrong bank. -/
theorem norsfRead_wraps_in_bank : ¬ReadsRight earCrossing := by
  intro h
  have hq : (16 * 1024 * 1024 - 1, 2) ∈ cut (readPiece earChip) (16 * 1024 * 1024 - 1) 2 := by
    rw [cut_cons (by decide) (by decide)]
    exact List.mem_cons_self
  have hr : (16 * 1024 * 1024 - 1) % earChip.size % megabyte16 + 2 ≤ megabyte16 :=
    inReach_of_readsRight h (by decide) (by decide) hq
  exact absurd hr (by decide)

end BismarckPreloader.Nor
