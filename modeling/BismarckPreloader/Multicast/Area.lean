import BismarckPreloader.Multicast.Upgrade

/-!
# Flags and places of any frames

Whoever sends frames chooses all numbers in them. The sequence number is compared with
`FWSIZE` once, and `FWSIZE` itself passes; the length of the image is not compared with
anything. `staysInside_iff` says which sequences of frames do no harm.
-/

namespace BismarckPreloader.Multicast

variable {b : Build} {p : Frame} {s : State}

def accesses (b : Build) : State → List Frame → List Access
  | _, [] => []
  | s, p :: ps =>
    (processMultcastUpgrade b p s).2 ++ accesses b (processMultcastUpgrade b p s).1 ps

def Access.Inside (b : Build) : Access → Prop
  | .flag i => i < b.fwsize
  | .store o => o.toNat + 1024 ≤ 1024 * (b.fwsize - 1)

def Tests (b : Build) (p : Frame) (s : State) : Prop :=
  (Announces b p ∧ Known p s) ∨
    (Stores b p s ∧ b.large = true ∧ (count p s).recvValidPktCnt = (count p s).needPktCnt)

structure Mild (b : Build) (p : Frame) (s : State) : Prop where
  limit : p.IsData → p.seqnum.toNat ≠ b.fwsize
  zero : Stores b p s → p.seqnum ≠ 0
  length : Tests b p s → s.totalLen.toNat ≤ 1024 * (b.fwsize - 1)

structure Traffic where
  build : Build
  start : State
  frames : List Frame

namespace Traffic

def StaysInside (t : Traffic) : Prop :=
  ∀ a ∈ accesses t.build t.start t.frames, a.Inside t.build

def AllMild (b : Build) : State → List Frame → Prop
  | _, [] => True
  | s, p :: ps => Mild b p s ∧ AllMild b (processMultcastUpgrade b p s).1 ps

end Traffic

-- ---------------------------------------------------------------------------
-- One frame
-- ---------------------------------------------------------------------------

theorem fwsize_pos (b : Build) : 0 < b.fwsize := by
  unfold Build.fwsize
  split
  · split <;> omega
  · omega

theorem fwsize_le (b : Build) : b.fwsize ≤ 61440 := by
  unfold Build.fwsize
  split
  · split <;> omega
  · omega

theorem frames_le_iff {len : UInt32} {n : Nat} : frames len ≤ n ↔ len.toNat ≤ 1024 * n := by
  unfold frames
  split <;> omega

theorem offset_toNat {seq : UInt32} (h : 0 < seq.toNat) (hle : seq.toNat ≤ 61440) :
    (offset seq).toNat = 1024 * (seq.toNat - 1) := by
  have h1 : (1 : UInt32) ≤ seq := by
    rw [UInt32.le_iff_toNat_le]
    exact h
  rw [offset, UInt32.toNat_mul, UInt32.toNat_sub_of_le _ _ h1, show (1024 : UInt32).toNat = 1024
    from rfl, show (1 : UInt32).toNat = 1 from rfl, Nat.mod_eq_of_lt (by omega)]

theorem finishAccesses_inside :
    (∀ a ∈ finishAccesses s, a.Inside b) ↔ s.totalLen.toNat ≤ 1024 * (b.fwsize - 1) := by
  have hpos := fwsize_pos b
  rw [← frames_le_iff]
  unfold finishAccesses
  constructor
  · intro h
    by_contra hlt
    have hlast := h (.flag (frames s.totalLen)) (List.mem_map_of_mem (List.mem_range'_1.mpr
      ⟨by omega, by omega⟩))
    change frames s.totalLen < b.fwsize at hlast
    omega
  · intro h a ha
    obtain ⟨i, hi, rfl⟩ := List.mem_map.mp ha
    have := List.mem_range'_1.mp hi
    change i < b.fwsize
    omega

theorem store_inside (h : p.seqnum.toNat ≤ b.fwsize) :
    (Access.store (offset p.seqnum)).Inside b ↔
      p.seqnum ≠ 0 ∧ p.seqnum.toNat ≠ b.fwsize := by
  have hfw := fwsize_le b
  change (offset p.seqnum).toNat + 1024 ≤ 1024 * (b.fwsize - 1) ↔ _
  by_cases h0 : p.seqnum = 0
  · rw [h0, show (offset 0).toNat = 4294966272 from by decide]
    refine iff_of_false (by omega) fun hno => hno.1 rfl
  · have hpos : 0 < p.seqnum.toNat := Nat.pos_of_ne_zero fun he =>
      h0 (UInt32.toNat_inj.mp he)
    rw [offset_toNat hpos (by omega)]
    constructor
    · intro hle
      exact ⟨h0, by omega⟩
    · rintro ⟨-, hne⟩
      omega

theorem flag_inside (h : p.seqnum.toNat ≤ b.fwsize) :
    (Access.flag p.seqnum.toNat).Inside b ↔ p.seqnum.toNat ≠ b.fwsize := by
  change p.seqnum.toNat < b.fwsize ↔ _
  omega

theorem processData_inside (h : Stores b p s) :
    (∀ a ∈ (processData b p (begun s)).2, a.Inside b) ↔
      (p.seqnum ≠ 0 ∧ p.seqnum.toNat ≠ b.fwsize) ∧
        (Tests b p s → s.totalLen.toNat ≤ 1024 * (b.fwsize - 1)) := by
  have htests : Tests b p s ↔ b.large = true ∧
      (count p s).recvValidPktCnt = (count p s).needPktCnt := by
    constructor
    · rintro (⟨ha, -⟩ | ⟨-, ht⟩)
      · exact absurd h.isData ha.not_isData
      · exact ht
    · exact fun ht => .inr ⟨h, ht⟩
  have hused : (∀ a ∈ [Access.store (offset p.seqnum), .flag p.seqnum.toNat], a.Inside b) ↔
      p.seqnum ≠ 0 ∧ p.seqnum.toNat ≠ b.fwsize := by
    rw [List.forall_mem_cons, List.forall_mem_singleton, store_inside h.seqnum_le,
      flag_inside h.seqnum_le]
    exact ⟨fun hb => hb.1, fun hb => ⟨hb, hb.2⟩⟩
  cases hl : b.large with
  | false =>
    rw [processData_small hl, hused]
    refine ⟨fun hu => ⟨hu, fun ht => ?_⟩, fun hu => hu.1⟩
    cases hl.symm.trans (htests.mp ht).1
  | true =>
    by_cases hc : (count p s).recvValidPktCnt = (count p s).needPktCnt
    · rw [processData_enough hl hc, List.forall_mem_append, hused, finishAccesses_inside]
      exact ⟨fun ⟨hu, hlen⟩ => ⟨hu, fun _ => hlen⟩, fun ⟨hu, hlen⟩ =>
        ⟨hu, hlen (htests.mpr ⟨hl, hc⟩)⟩⟩
    · rw [processData_counted hl hc, hused]
      exact ⟨fun hu => ⟨hu, fun ht => absurd (htests.mp ht).2 hc⟩, fun hu => hu.1⟩

theorem process_inside :
    (∀ a ∈ (processMultcastUpgrade b p s).2, a.Inside b) ↔ Mild b p s := by
  rcases process_cases b p s with ⟨hs, he⟩ | ⟨ha, he⟩ | ⟨hs, ha, -, he⟩
  · rw [he, List.forall_mem_cons, processData_inside hs, flag_inside hs.seqnum_le]
    constructor
    · rintro ⟨-, ⟨h0, hne⟩, hlen⟩
      exact ⟨fun _ => hne, fun _ => h0, hlen⟩
    · rintro ⟨hne, h0, hlen⟩
      exact ⟨hne hs.isData, ⟨h0 hs, hne hs.isData⟩, hlen⟩
  · have hd := ha.not_isData
    have htests : Tests b p s ↔ Known p s :=
      ⟨fun ht => ht.elim (fun h => h.2) fun h => absurd h.1.isData hd, fun hk => .inl ⟨ha, hk⟩⟩
    have hmild : Mild b p s ↔ (Known p s → s.totalLen.toNat ≤ 1024 * (b.fwsize - 1)) :=
      ⟨fun h hk => h.length (htests.mpr hk), fun h =>
        ⟨fun hdata => absurd hdata hd, fun hst => absurd hst.isData hd,
          fun ht => h (htests.mp ht)⟩⟩
    rw [he, hmild]
    by_cases hk : Known p s
    · rw [processInfo_known hk, finishAccesses_inside]
      exact ⟨fun h _ => h, fun h => h hk⟩
    · rw [processInfo_new hk]
      exact ⟨fun _ h => absurd h hk, fun _ a h => nomatch h⟩
  · have hno : ¬Tests b p s := fun ht => ht.elim (fun h => ha h.1) fun h => hs h.1
    rw [he]
    by_cases hd : p.seqnum.toNat ≤ b.fwsize ∧ p.IsData
    · rw [if_pos hd, List.forall_mem_singleton, flag_inside hd.1]
      exact ⟨fun h => ⟨fun _ => h, fun h' => absurd h' hs, fun h' => absurd h' hno⟩,
        fun h => h.limit hd.2⟩
    · rw [if_neg hd]
      refine ⟨fun _ => ⟨fun hdata heq => hd ⟨by omega, hdata⟩, fun h' => absurd h' hs,
        fun h' => absurd h' hno⟩, fun _ a h => nomatch h⟩

namespace Traffic

theorem accesses_inside (b : Build) (ps : List Frame) (s : State) :
    (∀ a ∈ accesses b s ps, a.Inside b) ↔ AllMild b s ps := by
  induction ps generalizing s with
  | nil => exact ⟨fun _ => trivial, fun _ a h => nomatch h⟩
  | cons p ps ih => rw [accesses, List.forall_mem_append, process_inside, ih, AllMild]

/-- Nothing outside is used exactly when no data frame has the number `FWSIZE`, none with
number 0 is stored, and no length is too large for the flags when they are looked at. -/
theorem staysInside_iff (t : Traffic) : t.StaysInside ↔ AllMild t.build t.start t.frames :=
  accesses_inside _ _ _

def blank : State where
  seqNumFlag _ := false
  needPktCnt := 0
  recvValidPktCnt := 0
  frameStart := false
  frameAlive := false
  frameStop := false
  begin := false
  totalCrc32 := 0
  totalLen := 0
  partitions := []
  load _ := 0
  netState := .goOn
  bootFileSize := 0

/-- A data frame whose number is `FWSIZE`. -/
def atLimit : Traffic where
  build := ⟨false, false⟩
  start := blank
  frames := [⟨0x20000000, 10240, 0, 0, 0, fun _ => 0⟩]

theorem atLimit_not_staysInside : ¬atLimit.StaysInside := fun h =>
  ((accesses_inside _ _ _).mp h).1.limit (.inl (by decide)) (by decide)

end Traffic

end BismarckPreloader.Multicast
