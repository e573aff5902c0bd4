import BismarckPreloader.Lib.Loops
import BismarckPreloader.Lib.Words

/-!
# Images of records

`vm.img` is a sequence of records, each a header of 64 bytes and an image. `check_vm_img`
follows the lengths in the headers from record to record and accepts when the offset is not
below the size any more. The offset is a 32-bit number and an image size can be anything,
so a record may end behind the buffer, or in front of where it begins: `checkExact_iff` says for
which buffers the answer is right.

`buffer` is `img + offset` throughout, and a pointer has 32 bits like the offset.
-/

namespace BismarckPreloader.Vmimg

def vmimgBootKey : UInt32 := 0xB0010001
def vmimgDtbKey : UInt32 := 0xa0000443
def vmimgKernelKey : UInt32 := 0xa0000203
def vmimgRootfsKey : UInt32 := 0xa0000403
def vmimgUbiDeviceKey : UInt32 := 0xa0000503
def vmimgConfigKey : UInt32 := 0xCF010002
def vmimgCfgprovKey : UInt32 := 0xCF010202
def vmimgApplicationKey : UInt32 := 0xA0000003
def vmimgOsgiKey : UInt32 := 0xCAFEBABE
def vmimgBootenvKey : UInt32 := 0xB0020001
def vmimgVolumeKey : UInt32 := 0xA0000603

def vmimgKeyList : List UInt32 :=
  [vmimgBootKey, vmimgDtbKey, vmimgKernelKey, vmimgRootfsKey, vmimgConfigKey, vmimgCfgprovKey,
    vmimgApplicationKey, vmimgOsgiKey, vmimgBootenvKey, vmimgVolumeKey]

def hdrSize : UInt32 := 64

def wordAt (mem : UInt32 → UInt8) (a : UInt32) : UInt32 :=
  packWord (mem a) (mem (a + 1)) (mem (a + 2)) (mem (a + 3))

structure Buffer where
  mem : UInt32 → UInt8
  img : UInt32
  size : UInt32

structure Small extends Buffer where
  size_lt : size.toNat < 2 ^ 31

namespace Buffer

variable (x : Buffer)

def key (offset : UInt32) : UInt32 := wordAt x.mem (x.img + offset)

def imgSz (offset : UInt32) : UInt32 := wordAt x.mem (x.img + offset + 8)

def Listed (offset : UInt32) : Prop := x.key offset ∈ vmimgKeyList

instance (offset : UInt32) : Decidable (x.Listed offset) := inferInstanceAs (Decidable (_ ∈ _))

def after (offset : UInt32) : UInt32 := offset + (x.imgSz offset + hdrSize)

/-- The state of `check_vm_img`, with the offsets of the words it has read. -/
structure CheckState where
  offset : UInt32
  reads : List UInt32

def checkStep (s : CheckState) : Outcome CheckState (Nat × List UInt32) Empty :=
  if s.offset < x.size then
    if ¬x.Listed s.offset then .ret (0, s.reads ++ [s.offset])
    else if x.imgSz s.offset % 4 ≠ 0 then .ret (0, s.reads ++ [s.offset, s.offset + 8])
    else .next ⟨x.after s.offset, s.reads ++ [s.offset, s.offset + 8]⟩
  else .ret (1, s.reads)

/-- `check_vm_img` returns `r` after it has read the words at `reads`. -/
def CheckVmImg (r : Nat) (reads : List UInt32) : Prop :=
  if x.size < hdrSize then r = 0 ∧ reads = []
  else Loop.Leads x.checkStep ⟨0, []⟩ (.ret (r, reads))

inductive Records : UInt32 → Prop where
  | done : Records x.size
  | record (listed : x.Listed o) (aligned : x.imgSz o % 4 = 0)
      (fits : o.toNat + 64 + (x.imgSz o).toNat ≤ x.size.toNat) (rest : Records (x.after o)) :
      Records o

def IsImage : Prop := x.size ≠ 0 ∧ x.Records 0

def Inside (reads : List UInt32) : Prop := ∀ a ∈ reads, a.toNat + 4 ≤ x.size.toNat

def Exact : Prop :=
  ∃ r reads, x.CheckVmImg r reads ∧ x.Inside reads ∧ (r = 1 ↔ x.IsImage)

inductive Rejects : UInt32 → Prop where
  | key (inside : o.toNat + 4 ≤ x.size.toNat) (listed : ¬x.Listed o) : Rejects o
  | odd (inside : o.toNat + 12 ≤ x.size.toNat) (listed : x.Listed o)
      (odd : x.imgSz o % 4 ≠ 0) : Rejects o
  | next (inside : o.toNat + 12 ≤ x.size.toNat) (listed : x.Listed o)
      (aligned : x.imgSz o % 4 = 0) (rest : Rejects (x.after o)) : Rejects o

variable {x} {o : UInt32} {reads : List UInt32}

theorem checkStep_unlisted (hlt : o < x.size) (hl : ¬x.Listed o) :
    x.checkStep ⟨o, reads⟩ = .ret (0, reads ++ [o]) := by
  rw [checkStep, if_pos hlt, if_pos hl]

theorem checkStep_odd (hlt : o < x.size) (hl : x.Listed o) (ho : x.imgSz o % 4 ≠ 0) :
    x.checkStep ⟨o, reads⟩ = .ret (0, reads ++ [o, o + 8]) := by
  rw [checkStep, if_pos hlt, if_neg (not_not.mpr hl), if_pos ho]

theorem checkStep_record (hlt : o < x.size) (hl : x.Listed o) (ha : x.imgSz o % 4 = 0) :
    x.checkStep ⟨o, reads⟩ = .next ⟨x.after o, reads ++ [o, o + 8]⟩ := by
  rw [checkStep, if_pos hlt, if_neg (not_not.mpr hl), if_neg (not_not.mpr ha)]

theorem checkStep_end (hle : ¬o < x.size) : x.checkStep ⟨o, reads⟩ = .ret (1, reads) := by
  rw [checkStep, if_neg hle]

theorem add_eight_toNat (h : o.toNat + 12 ≤ x.size.toNat) : (o + 8).toNat = o.toNat + 8 := by
  have := x.size.toNat_lt
  rw [UInt32.toNat_add, show (8 : UInt32).toNat = 8 from rfl, Nat.mod_eq_of_lt (by omega)]

theorem Inside.header (h : x.Inside reads) (hin : o.toNat + 12 ≤ x.size.toNat) :
    x.Inside (reads ++ [o, o + 8]) := by
  intro a ha
  simp only [List.mem_append, List.mem_cons, List.not_mem_nil, or_false] at ha
  rcases ha with ha | rfl | rfl
  · exact h a ha
  · omega
  · rw [add_eight_toNat hin]
    omega

theorem Inside.of_header (hs : x.size.toNat < 2 ^ 31) (h : x.Inside (reads ++ [o, o + 8]))
    (hlt : o < x.size) : o.toNat + 12 ≤ x.size.toNat := by
  have ho : o.toNat < x.size.toNat := hlt
  have h8 := h (o + 8) (by simp)
  rw [UInt32.toNat_add, show (8 : UInt32).toNat = 8 from rfl, Nat.mod_eq_of_lt (by omega)] at h8
  omega

-- ---------------------------------------------------------------------------
-- Whole runs
-- ---------------------------------------------------------------------------

theorem Records.leads (h : x.Records o) (hin : x.Inside reads) :
    ∃ reads', Loop.Leads x.checkStep ⟨o, reads⟩ (.ret (1, reads')) ∧ x.Inside reads' := by
  induction h generalizing reads with
  | done => exact ⟨reads, .one (checkStep_end (UInt32.lt_irrefl _)), hin⟩
  | @record o listed aligned fits rest ih =>
    have hlt : o.toNat < x.size.toNat := by omega
    obtain ⟨reads', hl, hin'⟩ := ih (hin.header (o := o) (by omega))
    exact ⟨reads', .head (checkStep_record hlt listed aligned) hl, hin'⟩

theorem Rejects.leads (h : x.Rejects o) (hin : x.Inside reads) :
    ∃ reads', Loop.Leads x.checkStep ⟨o, reads⟩ (.ret (0, reads')) ∧ x.Inside reads' := by
  induction h generalizing reads with
  | @key o inside listed =>
    have hlt : o.toNat < x.size.toNat := by omega
    refine ⟨_, .one (checkStep_unlisted hlt listed), ?_⟩
    intro a ha
    rcases List.mem_append.mp ha with ha | ha
    · exact hin a ha
    · rw [List.mem_singleton.mp ha]
      exact inside
  | @odd o inside listed odd =>
    have hlt : o.toNat < x.size.toNat := by omega
    exact ⟨_, .one (checkStep_odd hlt listed odd), hin.header inside⟩
  | @next o inside listed aligned rest ih =>
    have hlt : o.toNat < x.size.toNat := by omega
    obtain ⟨reads', hl, hin'⟩ := ih (hin.header inside)
    exact ⟨reads', .head (checkStep_record hlt listed aligned) hl, hin'⟩

theorem check_cases (h : Loop.run x.checkStep (n + 1) ⟨o, reads⟩ = .ret (r, reads')) :
    (o < x.size ∧ ¬x.Listed o ∧ r = 0 ∧ reads' = reads ++ [o]) ∨
    (o < x.size ∧ x.Listed o ∧ x.imgSz o % 4 ≠ 0 ∧ r = 0 ∧ reads' = reads ++ [o, o + 8]) ∨
    (o < x.size ∧ x.Listed o ∧ x.imgSz o % 4 = 0 ∧
      Loop.run x.checkStep n ⟨x.after o, reads ++ [o, o + 8]⟩ = .ret (r, reads')) ∨
    (¬o < x.size ∧ r = 1 ∧ reads' = reads) := by
  by_cases hlt : o < x.size
  · by_cases hl : x.Listed o
    · by_cases ha : x.imgSz o % 4 = 0
      · rw [Loop.run_succ_next (checkStep_record hlt hl ha)] at h
        exact .inr (.inr (.inl ⟨hlt, hl, ha, h⟩))
      · rw [Loop.run_succ_exit (checkStep_odd hlt hl ha) rfl] at h
        cases h
        exact .inr (.inl ⟨hlt, hl, ha, rfl, rfl⟩)
    · rw [Loop.run_succ_exit (checkStep_unlisted hlt hl) rfl] at h
      cases h
      exact .inl ⟨hlt, hl, rfl, rfl⟩
  · rw [Loop.run_succ_exit (checkStep_end hlt) rfl] at h
    cases h
    exact .inr (.inr (.inr ⟨hlt, rfl, rfl⟩))

theorem reads_grow (h : Loop.run x.checkStep n ⟨o, reads⟩ = .ret (r, reads')) :
    reads <+: reads' := by
  induction n generalizing o reads with
  | zero => cases h
  | succ n ih =>
    rcases check_cases h with ⟨-, -, -, rfl⟩ | ⟨-, -, -, -, rfl⟩ | ⟨-, -, -, h⟩ | ⟨-, -, rfl⟩
    · exact List.prefix_append _ _
    · exact List.prefix_append _ _
    · exact (List.prefix_append _ _).trans (ih h)
    · exact List.prefix_rfl

theorem rejects_of_run (hs : x.size.toNat < 2 ^ 31)
    (h : Loop.run x.checkStep n ⟨o, reads⟩ = .ret (r, reads'))
    (hr : r ≠ 1) (hin : x.Inside reads') : x.Rejects o := by
  induction n generalizing o reads with
  | zero => cases h
  | succ n ih =>
    rcases check_cases h with ⟨-, hl, -, rfl⟩ | ⟨hlt, hl, ha, -, rfl⟩ | ⟨hlt, hl, ha, h⟩ | ⟨-, h1, -⟩
    · exact .key (hin o (by simp)) hl
    · exact .odd (hin.of_header hs hlt) hl ha
    · have hhead : x.Inside (reads ++ [o, o + 8]) := fun a hm =>
        hin a ((reads_grow h).subset hm)
      exact .next (hhead.of_header hs hlt) hl ha (ih h)
    · exact absurd h1 hr

theorem IsImage.hdrSize_le (h : x.IsImage) : ¬x.size < hdrSize := by
  obtain ⟨hne, hrec⟩ := h
  have hh : hdrSize.toNat = 64 := rfl
  rw [UInt32.lt_iff_toNat_lt, hh]
  generalize ho : (0 : UInt32) = o at hrec
  cases hrec with
  | done => exact absurd ho.symm hne
  | record _ _ fits _ => omega

theorem IsImage.accepted (h : x.IsImage) : ∃ reads, x.CheckVmImg 1 reads ∧ x.Inside reads := by
  have hnil : x.Inside [] := fun a ha => nomatch ha
  obtain ⟨reads, hl, hin⟩ := h.2.leads hnil
  refine ⟨reads, ?_, hin⟩
  rw [CheckVmImg, if_neg h.hdrSize_le]
  exact hl

theorem CheckVmImg.unique (h : x.CheckVmImg r reads) (h' : x.CheckVmImg r' reads') : r = r' := by
  unfold CheckVmImg at h h'
  split at h
  next hs =>
    rw [if_pos hs] at h'
    rw [h.1, h'.1]
  next hs =>
    rw [if_neg hs] at h'
    cases h.unique h' rfl rfl
    rfl

theorem Exact.cases (hs : x.size.toNat < 2 ^ 31) (h : x.Exact) :
    x.size < hdrSize ∨ x.IsImage ∨ x.Rejects 0 := by
  obtain ⟨r, reads, hc, hin, hr⟩ := h
  by_cases hlt : x.size < hdrSize
  · exact .inl hlt
  · rw [CheckVmImg, if_neg hlt] at hc
    obtain ⟨n, hn⟩ := hc
    by_cases h1 : r = 1
    · exact .inr (.inl (hr.mp h1))
    · exact .inr (.inr (rejects_of_run hs hn h1 hin))

theorem exact_of_zero (h : x.CheckVmImg 0 reads) (hin : x.Inside reads) : x.Exact := by
  refine ⟨0, reads, h, hin, ⟨fun h0 => absurd h0 Nat.zero_ne_one, fun himg => ?_⟩⟩
  obtain ⟨reads', hc, -⟩ := himg.accepted
  exact h.unique hc

end Buffer

namespace Small

open Buffer

/-- The answer is right for the buffers too short for a header, for the images, and for
those in which the lengths lead to a header that is none. -/
theorem checkExact_iff (x : Small) : x.Exact ↔ x.size < hdrSize ∨ x.IsImage ∨ x.Rejects 0 := by
  refine ⟨Exact.cases x.size_lt, ?_⟩
  have hnil : x.toBuffer.Inside [] := fun a ha => nomatch ha
  by_cases hs : x.size < hdrSize
  · intro _
    exact exact_of_zero (by rw [CheckVmImg, if_pos hs]; exact ⟨rfl, rfl⟩) hnil
  · rintro (h | h | h)
    · exact absurd h hs
    · obtain ⟨reads, hc, hin⟩ := h.accepted
      exact ⟨1, reads, hc, hin, ⟨fun _ => h, fun _ => rfl⟩⟩
    · obtain ⟨reads, hl, hin⟩ := h.leads hnil
      exact exact_of_zero (by rw [CheckVmImg, if_neg hs]; exact hl) hin

def headerOnly : Small where
  mem a := if a = 0 then 0xa0 else if a = 2 then 0x02 else if a = 3 then 0x03
    else if a = 11 then 4 else 0
  img := 0
  size := 64
  size_lt := by decide

theorem headerOnly_listed : headerOnly.Listed 0 := by decide +kernel

theorem headerOnly_imgSz : headerOnly.imgSz 0 = 4 := by decide +kernel

/-- It is accepted. -/
theorem headerOnly_not_exact : ¬headerOnly.Exact := by
  intro h
  have hsz : (headerOnly.imgSz 0).toNat = 4 := by
    rw [headerOnly_imgSz]
    rfl
  have hsize : headerOnly.size.toNat = 64 := rfl
  have hafter : (headerOnly.after 0).toNat = 68 := by
    rw [after, headerOnly_imgSz]
    rfl
  have hnone : ¬headerOnly.Rejects (headerOnly.after 0) := by
    intro hr
    cases hr <;> omega
  rcases h.cases headerOnly.size_lt with h | ⟨hne, h⟩ | h
  · exact absurd h (by decide)
  · generalize ho : (0 : UInt32) = o at h
    cases h with
    | done => cases ho
    | record _ _ fits _ =>
      subst ho
      omega
  · generalize ho : (0 : UInt32) = o at h
    cases h with
    | key _ listed => exact listed (ho ▸ headerOnly_listed)
    | odd _ _ odd =>
      subst ho
      exact odd (by rw [headerOnly_imgSz]; rfl)
    | next _ _ _ rest =>
      subst ho
      exact hnone rest

end Small

end BismarckPreloader.Vmimg
