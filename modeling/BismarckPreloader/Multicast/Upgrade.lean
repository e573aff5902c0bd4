import Mathlib.Logic.Function.Basic
import BismarckPreloader.Lib.Words

/-!
# Frames of a multicast upgrade

An image is sent in frames of 1024 bytes, numbered from 1. Information frames announce its
length and checksum and the partitions; data frames are stored where their number says and
flagged. When an information frame comes again, or in the builds for large images when
enough data frames have come, the flags are looked at, and the image is complete if all of
them are there. A frame acts on the globals of the receiver; `accesses` are the flags and
places in the load area it uses.

The load area is a function of the distance to `ImgLoadAddr`, modulo `2 ^ 32` like a pointer.
-/

namespace BismarckPreloader.Multicast

def crcBit (crc : UInt32) : UInt32 :=
  if crc &&& 1 = 1 then (crc >>> 1) ^^^ 0xEDB88320 else crc >>> 1

def crcByte (crc : UInt32) (b : UInt8) : UInt32 := Nat.repeat crcBit 8 (crc ^^^ b.toUInt32)

def crc32 (bytes : List UInt8) : UInt32 := bytes.foldl crcByte 0xFFFFFFFF ^^^ 0xFFFFFFFF

-- ---------------------------------------------------------------------------
-- Frames and globals
-- ---------------------------------------------------------------------------

structure Build where
  /-- `CONFIG_UPGRADE_LARGE_FIRMWARE` -/
  large : Bool
  /-- One of the targets with room for larger images. -/
  roomy : Bool

/-- `FWSIZE`. -/
def Build.fwsize (b : Build) : Nat :=
  if b.roomy then if b.large then 61440 else 46080 else 10240

inductive DataType where
  | nop
  | norm
  | last
  | info
  | other
  deriving DecidableEq

/-- `MUTICAST_FRAME` with its numbers read; the two names in it are not used. -/
structure Frame where
  hl : UInt32
  seqnum : UInt32
  datacrc : UInt32
  imagelen : UInt32
  imagecrc : UInt32
  data : Nat → UInt8

namespace Frame

variable (p : Frame)

def type : DataType :=
  if p.hl >>> 29 = 0 then .nop
  else if p.hl >>> 29 = 1 then .norm
  else if p.hl >>> 29 = 2 then .last
  else if p.hl >>> 29 = 4 then .info
  else .other

def IsData : Prop := p.type = .norm ∨ p.type = .last

instance : Decidable p.IsData := inferInstanceAs (Decidable (_ ∨ _))

/-- The bytes of `image_data`. -/
def bytes : List UInt8 := (List.range 1024).map p.data

def Intact : Prop := crc32 p.bytes = p.datacrc

instance : Decidable p.Intact := inferInstanceAs (Decidable (_ = _))

end Frame

inductive PartType where
  | boot
  | img
  | conf
  deriving DecidableEq

/-- `partition_info`; a type of 0 is `none`. -/
structure PartitionInfo where
  valid : Bool
  type : Option PartType
  addrstart : UInt32
  addrend : UInt32
  coverFlag : UInt8
  deriving DecidableEq

def PartitionInfo.cleared : PartitionInfo := ⟨false, none, 0, 0, 0⟩

inductive NetState where
  | goOn
  | success
  | fail
  deriving DecidableEq

structure State where
  seqNumFlag : Nat → Bool
  needPktCnt : UInt32
  recvValidPktCnt : UInt32
  frameStart : Bool
  frameAlive : Bool
  frameStop : Bool
  begin : Bool
  totalCrc32 : UInt32
  totalLen : UInt32
  partitions : List PartitionInfo
  load : UInt32 → UInt8
  netState : NetState
  bootFileSize : UInt32

def nameIs (data : Nat → UInt8) : Nat → List UInt8 → Bool
  | o, [] => data o == 0
  | o, ch :: cs => data o == ch && nameIs data (o + 1) cs

def bootName : List UInt8 := [0x62, 0x6f, 0x6f, 0x74, 0x6c, 0x6f, 0x61, 0x64, 0x65, 0x72]
def kernelName : List UInt8 := [0x6b, 0x65, 0x72, 0x6e, 0x65, 0x6c]
def confName : List UInt8 := [0x63, 0x6f, 0x6e, 0x66]

def partType (data : Nat → UInt8) (o : Nat) : Option PartType :=
  if nameIs data o bootName then some .boot
  else if nameIs data o kernelName then some .img
  else if nameIs data o confName then some .conf
  else none

def wordAt (data : Nat → UInt8) (o : Nat) : UInt32 :=
  packWord (data o) (data (o + 1)) (data (o + 2)) (data (o + 3))

/-- The entry for a `partition_hdr` of 32 bytes with a name. -/
def partition (data : Nat → UInt8) (o : Nat) : PartitionInfo :=
  ⟨true, partType data o, wordAt data (o + 20), wordAt data (o + 24), data (o + 28)⟩

def parsePartitions (data : Nat → UInt8) : Nat → Nat → List PartitionInfo
  | 0, _ => []
  | n + 1, phdr =>
    if data phdr = 0 then .cleared :: parsePartitions data n phdr
    else partition data phdr :: parsePartitions data n (phdr + 32)

-- ---------------------------------------------------------------------------
-- A frame
-- ---------------------------------------------------------------------------

inductive Access where
  | flag (i : Nat)
  | store (offset : UInt32)
  deriving DecidableEq

def offset (seq : UInt32) : UInt32 := 1024 * (seq - 1)

def multicastListAdd (data : Nat → UInt8) (seq : UInt32) (s : State) : State :=
  { s with
    load := fun a => if (a - offset seq).toNat < 1024 then data (a - offset seq).toNat else s.load a
    seqNumFlag := Function.update s.seqNumFlag seq.toNat true }

def multicastListFree (b : Build) (s : State) : State :=
  { s with seqNumFlag := fun i => if i < b.fwsize then false else s.seqNumFlag i }

def frames (len : UInt32) : Nat := len.toNat / 1024 + if len.toNat % 1024 ≠ 0 then 1 else 0

def complete (s : State) : Bool := (List.range' 1 (frames s.totalLen)).all s.seqNumFlag

def finishFirmwareRecieve (b : Build) (s : State) : State :=
  if complete s then
    { multicastListFree b s with bootFileSize := s.totalLen, netState := .success }
  else s

def finishAccesses (s : State) : List Access := (List.range' 1 (frames s.totalLen)).map .flag

def Known (p : Frame) (s : State) : Prop :=
  (s.totalLen ≠ 0 ∧ s.totalCrc32 ≠ 0) ∧ p.imagecrc = s.totalCrc32 ∧ s.totalLen = p.imagelen

instance (p : Frame) (s : State) : Decidable (Known p s) := inferInstanceAs (Decidable (_ ∧ _))

def announce (p : Frame) (s : State) : State :=
  { s with
    frameStart := true
    totalLen := if s.totalLen ≠ 0 ∧ s.totalCrc32 ≠ 0 then s.totalLen else p.imagelen
    totalCrc32 := if s.totalLen ≠ 0 ∧ s.totalCrc32 ≠ 0 then s.totalCrc32 else p.imagecrc
    partitions := parsePartitions p.data 3 0 }

def processInfo (b : Build) (p : Frame) (s : State) : State × List Access :=
  if Known p s then
    (finishFirmwareRecieve b { s with frameStart := true }, finishAccesses s)
  else (announce p s, [])

def count (p : Frame) (s : State) : State :=
  { s with
    needPktCnt := if s.needPktCnt = 0 then UInt32.ofNat (frames p.imagelen) else s.needPktCnt
    recvValidPktCnt := s.recvValidPktCnt + 1 }

def processData (b : Build) (p : Frame) (s : State) : State × List Access :=
  let s' := multicastListAdd p.data p.seqnum s
  let used := [.store (offset p.seqnum), .flag p.seqnum.toNat]
  if b.large then
    let s'' := count p s'
    if s''.recvValidPktCnt = s''.needPktCnt then
      (finishFirmwareRecieve b s'', used ++ finishAccesses s'')
    else (s'', used)
  else (s', used)

/-- `MUP_DATA_ALIVE_ON` and `MUP_DATA_ALIVE_OFF`. -/
def processNop (p : Frame) (s : State) : State :=
  if p.data 0 = 1 then { s with frameAlive := true, frameStop := false }
  else if p.data 0 = 2 then { s with frameAlive := false, frameStop := true }
  else s

/-- `processMultcastUpgrade`. The flag for the end of the reception is set and cleared in
one call. -/
def processMultcastUpgrade (b : Build) (p : Frame) (s : State) : State × List Access :=
  if b.fwsize < p.seqnum.toNat then (s, [])
  else
    let s := { s with begin := true }
    if p.IsData then
      if s.seqNumFlag p.seqnum.toNat then (s, [.flag p.seqnum.toNat])
      else if ¬p.Intact then (s, [.flag p.seqnum.toNat])
      else
        let r := processData b p s
        (r.1, .flag p.seqnum.toNat :: r.2)
    else if ¬p.Intact then (s, [])
    else if p.type = .info then processInfo b p s
    else if p.type = .nop then (processNop p s, [])
    else (s, [])

def receive (b : Build) (s : State) (ps : List Frame) : State :=
  ps.foldl (fun s p => (processMultcastUpgrade b p s).1) s

/-- `multicast_start`, at the beginning of a net loop. -/
def multicastStart (s : State) : State :=
  { s with
    frameStart := false
    frameAlive := false
    frameStop := false
    totalLen := 0
    totalCrc32 := 0
    netState := .goOn
    bootFileSize := 0 }

-- ---------------------------------------------------------------------------
-- Everything a frame can do
-- ---------------------------------------------------------------------------

structure Stores (b : Build) (p : Frame) (s : State) : Prop where
  seqnum_le : p.seqnum.toNat ≤ b.fwsize
  isData : p.IsData
  new : s.seqNumFlag p.seqnum.toNat = false
  intact : p.Intact

structure Announces (b : Build) (p : Frame) : Prop where
  seqnum_le : p.seqnum.toNat ≤ b.fwsize
  type_eq : p.type = .info
  intact : p.Intact

instance (b : Build) (p : Frame) (s : State) : Decidable (Stores b p s) :=
  decidable_of_iff (p.seqnum.toNat ≤ b.fwsize ∧ p.IsData ∧
      s.seqNumFlag p.seqnum.toNat = false ∧ p.Intact)
    ⟨fun ⟨hle, hd, hn, hi⟩ => ⟨hle, hd, hn, hi⟩, fun ⟨hle, hd, hn, hi⟩ => ⟨hle, hd, hn, hi⟩⟩

instance (b : Build) (p : Frame) : Decidable (Announces b p) :=
  decidable_of_iff (p.seqnum.toNat ≤ b.fwsize ∧ p.type = .info ∧ p.Intact)
    ⟨fun ⟨hle, ht, hi⟩ => ⟨hle, ht, hi⟩, fun ⟨hle, ht, hi⟩ => ⟨hle, ht, hi⟩⟩

def Aside (s t : State) : Prop :=
  t = { s with begin := t.begin, frameAlive := t.frameAlive, frameStop := t.frameStop }

def begun (s : State) : State := { s with begin := true }

variable {b : Build} {p : Frame} {s : State}

theorem aside_processNop (p : Frame) (s : State) : Aside s (processNop p (begun s)) := by
  unfold processNop
  split
  · rfl
  · split <;> rfl

theorem Announces.not_isData (h : Announces b p) : ¬p.IsData := by
  rintro (h' | h')
  · cases h.type_eq.symm.trans h'
  · cases h.type_eq.symm.trans h'

theorem process_cases (b : Build) (p : Frame) (s : State) :
    (Stores b p s ∧ processMultcastUpgrade b p s =
      ((processData b p (begun s)).1, .flag p.seqnum.toNat :: (processData b p (begun s)).2)) ∨
    (Announces b p ∧ processMultcastUpgrade b p s = processInfo b p (begun s)) ∨
    (¬Stores b p s ∧ ¬Announces b p ∧ Aside s (processMultcastUpgrade b p s).1 ∧
      (processMultcastUpgrade b p s).2 =
        if p.seqnum.toNat ≤ b.fwsize ∧ p.IsData then [.flag p.seqnum.toNat] else []) := by
  by_cases hseq : b.fwsize < p.seqnum.toNat
  · refine .inr (.inr ⟨fun h => ?_, fun h => ?_, ?_⟩)
    · exact absurd h.seqnum_le (Nat.not_le.mpr hseq)
    · exact absurd h.seqnum_le (Nat.not_le.mpr hseq)
    · rw [processMultcastUpgrade, if_pos hseq, if_neg fun h => absurd h.1 (Nat.not_le.mpr hseq)]
      exact ⟨rfl, rfl⟩
  · have hle := Nat.not_lt.mp hseq
    rw [processMultcastUpgrade, if_neg hseq]
    by_cases hd : p.IsData
    · have hinfo : ¬Announces b p := fun h => h.not_isData hd
      cases hf : s.seqNumFlag p.seqnum.toNat with
      | true =>
        refine .inr (.inr ⟨fun h => ?_, hinfo, ?_⟩)
        · cases hf.symm.trans h.new
        · simp only [hd, hf, hle, if_true, and_self]
          exact ⟨rfl, trivial⟩
      | false =>
        by_cases hi : p.Intact
        · refine .inl ⟨⟨hle, hd, hf, hi⟩, ?_⟩
          simp only [hd, hf, hi, if_true, not_true, if_false, Bool.false_eq_true]
          rfl
        · refine .inr (.inr ⟨fun h => hi h.intact, hinfo, ?_⟩)
          simp only [hd, hf, hi, hle, if_true, not_false_eq_true, Bool.false_eq_true, if_false,
            and_self]
          exact ⟨rfl, trivial⟩
    · have hstores : ¬Stores b p s := fun h => hd h.isData
      by_cases hi : p.Intact
      · by_cases ht : p.type = .info
        · refine .inr (.inl ⟨⟨hle, ht, hi⟩, ?_⟩)
          simp only [hd, hi, ht, if_true, not_true, if_false]
          rfl
        · refine .inr (.inr ⟨hstores, fun h => ht h.type_eq, ?_⟩)
          by_cases hn : p.type = .nop
          · simp only [hd, hi, hn, if_true, not_true, if_false, and_false, reduceCtorEq]
            exact ⟨aside_processNop p s, trivial⟩
          · simp only [hd, hi, ht, hn, not_true, if_false, and_false]
            exact ⟨rfl, trivial⟩
      · refine .inr (.inr ⟨hstores, fun h => hi h.intact, ?_⟩)
        simp only [hd, hi, if_false, not_false_eq_true, if_true, and_false]
        exact ⟨rfl, trivial⟩

theorem processInfo_known (h : Known p s) :
    processInfo b p (begun s) =
      (finishFirmwareRecieve b { begun s with frameStart := true }, finishAccesses s) := if_pos h

theorem processInfo_new (h : ¬Known p s) :
    processInfo b p (begun s) = (announce p (begun s), []) := if_neg h

def added (p : Frame) (s : State) : State := multicastListAdd p.data p.seqnum (begun s)

theorem added_seqNumFlag (p : Frame) (s : State) :
    (added p s).seqNumFlag = Function.update s.seqNumFlag p.seqnum.toNat true := rfl

theorem added_load (p : Frame) (s : State) (a : UInt32) :
    (added p s).load a = if (a - offset p.seqnum).toNat < 1024
      then p.data (a - offset p.seqnum).toNat else s.load a := rfl

theorem processData_small (h : b.large = false) :
    processData b p (begun s) =
      (added p s, [.store (offset p.seqnum), .flag p.seqnum.toNat]) := by
  rw [processData, if_neg (by rw [h]; exact Bool.false_ne_true)]
  rfl

theorem processData_counted (h : b.large = true)
    (hc : (count p s).recvValidPktCnt ≠ (count p s).needPktCnt) :
    processData b p (begun s) =
      (count p (added p s), [.store (offset p.seqnum), .flag p.seqnum.toNat]) := by
  rw [processData, if_pos h]
  exact if_neg hc

theorem processData_enough (h : b.large = true)
    (hc : (count p s).recvValidPktCnt = (count p s).needPktCnt) :
    processData b p (begun s) =
      (finishFirmwareRecieve b (count p (added p s)),
        [.store (offset p.seqnum), .flag p.seqnum.toNat] ++ finishAccesses s) := by
  rw [processData, if_pos h]
  exact if_pos hc

end BismarckPreloader.Multicast
