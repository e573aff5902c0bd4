import BismarckPreloader.Imgtar.Scan
import BismarckPreloader.Multicast.Upgrade
import BismarckPreloader.Vmimg.Check

/-!
# After the reception

`multicast_stop` compares the checksum and then goes through the partitions that the last
information frame announced. For a kernel it composes a command line and runs it; for a boot
loader it runs whatever is in the buffer for command lines. `matches_iff` says when the
commands are those that the frame asks for.

The commands that are run do not change the image in memory.
-/

namespace BismarckPreloader.Multicast

def imgLoadAddr : UInt32 := 0x80000000

/-- The command lines that `multicast_stop` composes. -/
inductive ImageCommand where
  | upimgtar (addr len : UInt32)
  | upvmimg (addr : UInt32)
  deriving DecidableEq

/-- What is in `cmd_buf`: what was composed, or what was on the stack. -/
inductive Line where
  | composed (c : ImageCommand)
  | stack
  deriving DecidableEq

def isImgTar (load : UInt32 → UInt8) (len : UInt32) : Bool :=
  decide (512 ≤ len) && Imgtar.Archive.checkImgTar ⟨load, len⟩ 0

def IsVmImg (load : UInt32 → UInt8) (len : UInt32) : Prop :=
  ∃ reads, Vmimg.Buffer.CheckVmImg ⟨load, 0, len⟩ 1 reads

/-- The command line for an image; there is none if the format is unknown, or if the check
does not end. -/
inductive Composes (load : UInt32 → UInt8) (len : UInt32) : Option ImageCommand → Prop where
  | tar (tar : isImgTar load len = true) : Composes load len (some (.upimgtar imgLoadAddr len))
  | vm (tar : isImgTar load len = false) (vm : IsVmImg load len) :
      Composes load len (some (.upvmimg imgLoadAddr))
  | unknown (tar : isImgTar load len = false) (vm : ¬IsVmImg load len) : Composes load len none

/-- The loop over the partitions, with the contents of `cmd_buf`. -/
def runPartitions (composed : Option ImageCommand) : Line → List PartitionInfo → List Line
  | _, [] => []
  | buf, i :: is =>
    if i.valid = false then runPartitions composed buf is
    else
      match i.type with
      | some .img =>
        match composed with
        | none => []
        | some c => .composed c :: runPartitions composed (.composed c) is
      | some .boot => buf :: runPartitions composed buf is
      | _ => runPartitions composed buf is

structure Received where
  info : Nat → UInt8
  load : UInt32 → UInt8
  totalLen : UInt32
  totalCrc32 : UInt32
  composed : Option ImageCommand
  composes : Composes load totalLen composed

namespace Received

variable (x : Received)

def partitions : List PartitionInfo := parsePartitions x.info 3 0

def CrcOk : Prop :=
  crc32 ((List.range x.totalLen.toNat).map fun i => x.load (UInt32.ofNat i)) = x.totalCrc32

instance : Decidable x.CrcOk := inferInstanceAs (Decidable (_ = _))

/-- The command lines that `multicast_stop` runs. -/
def multicastStop : List Line :=
  if x.CrcOk then runPartitions x.composed .stack x.partitions else []

def header (i : Nat) : PartitionInfo :=
  if x.info (32 * i) = 0 then .cleared else partition x.info (32 * i)

def announced : List PartitionInfo := [x.header 0, x.header 1, x.header 2]

end Received

namespace PartitionInfo

def IsKernel (i : PartitionInfo) : Prop := i.valid = true ∧ i.type = some .img

instance (i : PartitionInfo) : Decidable i.IsKernel := inferInstanceAs (Decidable (_ ∧ _))

def IsBoot (i : PartitionInfo) : Prop := i.valid = true ∧ i.type = some .boot

instance (i : PartitionInfo) : Decidable i.IsBoot := inferInstanceAs (Decidable (_ ∧ _))

end PartitionInfo

namespace Received

variable (x : Received)

/-- The partitions are those of the frame, and the commands are one for each kernel among
them, if there is an image and its checksum is right. -/
structure Matches : Prop where
  parsed : x.partitions = x.announced
  commands : x.multicastStop.map some =
    if x.CrcOk ∧ 0 < x.totalLen
    then (x.announced.filter fun i => i.IsKernel).map fun _ => x.composed.map Line.composed
    else []

def Shadowed : List PartitionInfo → Prop
  | [] => True
  | i :: is => i.IsKernel ∨ ¬i.IsBoot ∧ Shadowed is

structure Plain : Prop where
  gapless : ∀ i j, i < j → j < 3 → x.info (32 * j) ≠ 0 → x.info (32 * i) ≠ 0
  image : x.CrcOk → 0 < x.totalLen → (∀ i ∈ x.announced, ¬i.IsBoot) ∧
    ((∃ i ∈ x.announced, i.IsKernel) → x.composed ≠ none)
  empty : x.CrcOk → x.totalLen = 0 → Shadowed x.announced

variable {x}

theorem partition_ne_cleared (data : Nat → UInt8) (o : Nat) : partition data o ≠ .cleared := by
  intro h
  cases congrArg PartitionInfo.valid h

theorem parsed_iff : x.partitions = x.announced ↔
    ∀ i j, i < j → j < 3 → x.info (32 * j) ≠ 0 → x.info (32 * i) ≠ 0 := by
  have hne := fun o => partition_ne_cleared x.info o
  have hiff : (∀ i j, i < j → j < 3 → x.info (32 * j) ≠ 0 → x.info (32 * i) ≠ 0) ↔
      (x.info 32 ≠ 0 → x.info 0 ≠ 0) ∧ (x.info 64 ≠ 0 → x.info 0 ≠ 0 ∧ x.info 32 ≠ 0) := by
    constructor
    · intro h
      exact ⟨h 0 1 (by omega) (by omega), fun h2 =>
        ⟨h 0 2 (by omega) (by omega) h2, h 1 2 (by omega) (by omega) h2⟩⟩
    · rintro ⟨h1, h2⟩ i j hij hj
      obtain ⟨rfl, rfl⟩ | ⟨rfl, rfl⟩ | ⟨rfl, rfl⟩ :
          i = 0 ∧ j = 1 ∨ i = 0 ∧ j = 2 ∨ i = 1 ∧ j = 2 := by omega
      · exact h1
      · exact fun h => (h2 h).1
      · exact fun h => (h2 h).2
  rw [hiff]
  unfold partitions announced header
  by_cases h0 : x.info 0 = 0
  · by_cases h1 : x.info 32 = 0
    · by_cases h2 : x.info 64 = 0
      · simp [parsePartitions, h0, h1, h2]
      · simp [parsePartitions, h0, h1, h2, (hne _).symm]
    · simp [parsePartitions, h0, h1, (hne _).symm]
  · by_cases h1 : x.info 32 = 0
    · by_cases h2 : x.info 64 = 0
      · simp [parsePartitions, h0, h1, h2]
      · simp [parsePartitions, h0, h1, h2, (hne _).symm]
    · by_cases h2 : x.info 64 = 0
      · simp [parsePartitions, h0, h1, h2]
      · simp [parsePartitions, h0, h1, h2]

-- ---------------------------------------------------------------------------
-- Commands
-- ---------------------------------------------------------------------------

variable {composed : Option ImageCommand} {buf : Line} {i : PartitionInfo}
  {is : List PartitionInfo}

theorem run_cons (composed : Option ImageCommand) (buf : Line) (i : PartitionInfo)
    (is : List PartitionInfo) :
    runPartitions composed buf (i :: is) =
      if i.valid = false then runPartitions composed buf is
      else
        match i.type with
        | some .img =>
          match composed with
          | none => []
          | some c => .composed c :: runPartitions composed (.composed c) is
        | some .boot => buf :: runPartitions composed buf is
        | _ => runPartitions composed buf is := by
  rw [runPartitions.eq_def]

theorem valid_ne_false (h : i.valid = true) : ¬i.valid = false := by
  rw [h]
  decide

theorem run_kernel (h : i.IsKernel) (c : ImageCommand) :
    runPartitions (some c) buf (i :: is) =
      .composed c :: runPartitions (some c) (.composed c) is := by
  rw [run_cons, if_neg (valid_ne_false h.1), h.2]

theorem run_unknown (h : i.IsKernel) : runPartitions none buf (i :: is) = [] := by
  rw [run_cons, if_neg (valid_ne_false h.1), h.2]

theorem run_boot (h : i.IsBoot) :
    runPartitions composed buf (i :: is) = buf :: runPartitions composed buf is := by
  rw [run_cons, if_neg (valid_ne_false h.1), h.2]

theorem run_other (hk : ¬i.IsKernel) (hb : ¬i.IsBoot) :
    runPartitions composed buf (i :: is) = runPartitions composed buf is := by
  rw [run_cons]
  by_cases hv : i.valid = true
  · rw [if_neg (valid_ne_false hv)]
    cases ht : i.type with
    | none => rfl
    | some t =>
      cases t with
      | boot => exact absurd ⟨hv, ht⟩ hb
      | img => exact absurd ⟨hv, ht⟩ hk
      | conf => rfl
  · exact if_pos (Bool.eq_false_of_not_eq_true hv)

theorem not_isBoot_of_isKernel (h : i.IsKernel) : ¬i.IsBoot := by
  intro hb
  cases h.2.symm.trans hb.2

theorem run_length (c : ImageCommand) (buf : Line) (is : List PartitionInfo) :
    (runPartitions (some c) buf is).length =
      (is.filter fun i => i.IsKernel).length + (is.filter fun i => i.IsBoot).length := by
  induction is generalizing buf with
  | nil => rfl
  | cons i is ih =>
    by_cases hk : i.IsKernel
    · rw [run_kernel hk, List.length_cons, ih, List.filter_cons_of_pos (by simpa using hk),
        List.filter_cons_of_neg (by simpa using not_isBoot_of_isKernel hk), List.length_cons]
      omega
    · by_cases hb : i.IsBoot
      · rw [run_boot hb, List.length_cons, ih, List.filter_cons_of_neg (by simpa using hk),
          List.filter_cons_of_pos (by simpa using hb), List.length_cons]
        omega
      · rw [run_other hk hb, ih, List.filter_cons_of_neg (by simpa using hk),
          List.filter_cons_of_neg (by simpa using hb)]

theorem run_eq_kernels (c : ImageCommand) (buf : Line) (h : ∀ i ∈ is, ¬i.IsBoot) :
    runPartitions (some c) buf is = (is.filter fun i => i.IsKernel).map fun _ => .composed c := by
  induction is generalizing buf with
  | nil => rfl
  | cons i is ih =>
    have htail : ∀ i ∈ is, ¬i.IsBoot := fun i hi => h i (List.mem_cons_of_mem _ hi)
    by_cases hk : i.IsKernel
    · rw [run_kernel hk, ih _ htail, List.filter_cons_of_pos (by simpa using hk), List.map_cons]
    · rw [run_other hk (h i List.mem_cons_self), ih _ htail,
        List.filter_cons_of_neg (by simpa using hk)]

theorem run_some_iff (c : ImageCommand) (buf : Line) (is : List PartitionInfo) :
    (runPartitions (some c) buf is).map some =
      ((is.filter fun i => i.IsKernel).map fun _ => (some c).map Line.composed) ↔
    ∀ i ∈ is, ¬i.IsBoot := by
  constructor
  · intro h
    have hlen := congrArg List.length h
    rw [List.length_map, List.length_map, run_length] at hlen
    have hnil : (is.filter fun i => i.IsBoot) = [] := List.eq_nil_of_length_eq_zero (by omega)
    intro i hi hb
    exact (List.filter_eq_nil_iff.mp hnil i hi) (by simpa using hb)
  · intro h
    rw [run_eq_kernels c buf h, List.map_map]
    rfl

theorem run_none_iff (buf : Line) (is : List PartitionInfo) :
    runPartitions none buf is = [] ↔ Shadowed is := by
  induction is with
  | nil => exact ⟨fun _ => trivial, fun _ => rfl⟩
  | cons i is ih =>
    by_cases hk : i.IsKernel
    · rw [run_unknown hk]
      exact ⟨fun _ => .inl hk, fun _ => rfl⟩
    · by_cases hb : i.IsBoot
      · rw [run_boot hb]
        refine iff_of_false (List.cons_ne_nil _ _) ?_
        rintro (h | h)
        · exact hk h
        · exact h.1 hb
      · rw [run_other hk hb, ih]
        exact ⟨fun h => .inr ⟨hb, h⟩, fun h => (h.resolve_left hk).2⟩

theorem shadowed_iff (hk : ∀ i ∈ is, ¬i.IsKernel) : Shadowed is ↔ ∀ i ∈ is, ¬i.IsBoot := by
  induction is with
  | nil => exact ⟨fun _ _ hi => absurd hi List.not_mem_nil, fun _ => trivial⟩
  | cons i is ih =>
    rw [List.forall_mem_cons, ← ih fun i hi => hk i (List.mem_cons_of_mem _ hi)]
    exact or_iff_right (hk i List.mem_cons_self)

theorem run_none_kernels (buf : Line) (is : List PartitionInfo) :
    (runPartitions none buf is).map some =
      ((is.filter fun i => i.IsKernel).map fun _ => (none : Option ImageCommand).map Line.composed) ↔
    (∀ i ∈ is, ¬i.IsBoot) ∧ ∀ i ∈ is, ¬i.IsKernel := by
  by_cases hk : ∀ i ∈ is, ¬i.IsKernel
  · have hnil : (is.filter fun i => i.IsKernel) = [] :=
      List.filter_eq_nil_iff.mpr fun i hi => by simpa using hk i hi
    rw [hnil, List.map_nil, List.map_eq_nil_iff, run_none_iff, shadowed_iff hk]
    exact ⟨fun h => ⟨h, hk⟩, fun h => h.1⟩
  · refine iff_of_false (fun h => ?_) fun h => hk h.2
    push Not at hk
    obtain ⟨i, hi, hik⟩ := hk
    have hmem := List.mem_map_of_mem (f := fun _ : PartitionInfo =>
      (none : Option ImageCommand).map Line.composed)
      (List.mem_filter.mpr ⟨hi, by simpa using hik⟩ : i ∈ is.filter fun i => i.IsKernel)
    rw [← h] at hmem
    obtain ⟨l, -, hl⟩ := List.mem_map.mp hmem
    cases hl

theorem composed_of_empty (h : x.totalLen = 0) : x.composed = none := by
  have htar : ¬isImgTar x.load x.totalLen = true := by
    rw [h]
    exact Bool.false_ne_true
  have hvm : ¬IsVmImg x.load x.totalLen := by
    rintro ⟨reads, hc⟩
    rw [h] at hc
    cases hc.1
  cases hc : x.composed with
  | none => rfl
  | some c =>
    have hx := x.composes
    rw [hc] at hx
    cases hx with
    | tar tar => exact absurd tar htar
    | vm _ vm => exact absurd vm hvm

theorem commands_iff (h : x.partitions = x.announced) :
    (x.multicastStop.map some =
      if x.CrcOk ∧ 0 < x.totalLen
      then (x.announced.filter fun i => i.IsKernel).map fun _ => x.composed.map Line.composed
      else []) ↔
    (x.CrcOk → 0 < x.totalLen → (∀ i ∈ x.announced, ¬i.IsBoot) ∧
      ((∃ i ∈ x.announced, i.IsKernel) → x.composed ≠ none)) ∧
    (x.CrcOk → x.totalLen = 0 → Shadowed x.announced) := by
  by_cases hc : x.CrcOk
  · rw [multicastStop, if_pos hc, h]
    by_cases hlen : 0 < x.totalLen
    · have hne : x.totalLen ≠ 0 := fun h0 => absurd (h0 ▸ hlen) (UInt32.lt_irrefl 0)
      rw [if_pos ⟨hc, hlen⟩]
      cases hcomp : x.composed with
      | some c =>
        rw [run_some_iff]
        exact ⟨fun hb => ⟨fun _ _ => ⟨hb, fun _ => Option.some_ne_none c⟩,
          fun _ h0 => absurd h0 hne⟩, fun hb => (hb.1 hc hlen).1⟩
      | none =>
        rw [run_none_kernels]
        constructor
        · rintro ⟨hb, hk⟩
          exact ⟨fun _ _ => ⟨hb, fun ⟨i, hi, hik⟩ => absurd hik (hk i hi)⟩,
            fun _ h0 => absurd h0 hne⟩
        · intro hb
          obtain ⟨hb, hk⟩ := hb.1 hc hlen
          exact ⟨hb, fun i hi hik => hk ⟨i, hi, hik⟩ rfl⟩
    · have h0 : x.totalLen = 0 := UInt32.toNat_inj.mp (Nat.eq_zero_of_not_pos hlen)
      rw [if_neg fun hb => hlen hb.2, composed_of_empty h0, List.map_eq_nil_iff, run_none_iff]
      exact ⟨fun hs => ⟨fun _ hpos => absurd hpos hlen, fun _ _ => hs⟩, fun hs => hs.2 hc h0⟩
  · rw [multicastStop, if_neg hc, if_neg fun hb => hc hb.1]
    exact ⟨fun _ => ⟨fun hb => absurd hb hc, fun hb => absurd hb hc⟩, fun _ => rfl⟩

/-- The commands are those the frame asks for exactly when its headers have no gap, and, if
the checksum is right, there is no boot loader and a kernel comes in a known format. -/
theorem matches_iff (x : Received) : x.Matches ↔ x.Plain := by
  constructor
  · intro h
    obtain ⟨himage, hempty⟩ := (commands_iff h.parsed).mp h.commands
    exact ⟨parsed_iff.mp h.parsed, himage, hempty⟩
  · intro h
    have hparsed := parsed_iff.mpr h.gapless
    exact ⟨hparsed, (commands_iff hparsed).mpr ⟨h.image, h.empty⟩⟩

theorem bootOnly_composes : Composes (fun _ => 0) 1 none := by
  refine .unknown (by decide) ?_
  rintro ⟨reads, hc⟩
  cases hc.1

def bootOnly : Received where
  info k := bootName.getD k 0
  load _ := 0
  totalLen := 1
  totalCrc32 := crc32 [0]
  composed := none
  composes := bootOnly_composes

/-- What is on the stack is run as a command. -/
theorem bootOnly_not_matches : ¬bootOnly.Matches := by
  intro h
  have hboot : (bootOnly.header 0).IsBoot := by decide +kernel
  have himage := ((commands_iff h.parsed).mp h.commands).1 (by decide +kernel) (by decide)
  exact himage.1 _ List.mem_cons_self hboot

end Received

end BismarckPreloader.Multicast
