import BismarckPreloader.Multicast.Area

/-!
# From the network to the receiver

`net_process_received_packet` hands every IPv4 packet with a multicast address to the
receiver, in front of the tests of the protocol and of the length of a datagram. The receiver
takes 1086 bytes behind the place of the headers, and whatever the buffer holds there.
`onlyReceived_of_received` says for which frames nothing else than the frame matters: they carry
a whole upgrade frame, or what has come of one is enough for the receiver to ignore it. There are
no others before the receiver has begun.

A frame that is not handed to the receiver is of no interest here, so `accept` is about the
others only. Neither the API nor CDP is in the builds with the receiver.
-/

namespace BismarckPreloader.Multicast

structure Net where
  ourVlan : Nat
  nativeVlan : Nat
  bigEndian : Bool

def half (buf : Nat → UInt8) (o : Nat) : Nat := 256 * (buf o).toNat + (buf (o + 1)).toNat

/-- A frame as far as it is known which header it has: where the packet begins, the protocol,
and the tag. -/
structure Link where
  ip : Nat
  proto : Nat
  vlan : Nat

def vlanNone : Nat := 4095

def vlanId (v : Nat) : Nat := if v = 0xFFFF then vlanNone else v % 4096

def link (n : Net) (buf : Nat → UInt8) (len : Nat) : Option Link :=
  if half buf 12 < 1514 then some ⟨22, half buf 20, vlanNone⟩
  else if half buf 12 ≠ 0x8100 then some ⟨14, half buf 12, vlanNone⟩
  else if len < 18 then none
  else if n.ourVlan % 4096 = vlanNone then none
  else some ⟨18, half buf 16, half buf 14 % 4096⟩

def vlanOk (n : Net) (l : Link) : Bool :=
  vlanId n.ourVlan == vlanNone ||
    (if l.vlan = vlanNone then vlanId n.nativeVlan else l.vlan) == vlanId n.ourVlan

def headerWord (n : Net) (buf : Nat → UInt8) (ip i : Nat) : Nat :=
  if n.bigEndian then half buf (ip + 2 * i)
  else 256 * (buf (ip + 2 * i + 1)).toNat + (buf (ip + 2 * i)).toNat

/-- `ip_checksum_ok` of the 20 bytes of a header. -/
def ipChecksumOk (n : Net) (buf : Nat → UInt8) (ip : Nat) : Bool :=
  let sum := ((List.range 10).map (headerWord n buf ip)).sum
  let sum := sum / 65536 + sum % 65536
  let sum := sum + sum / 65536
  decide (65535 - sum % 65536 ≤ 1)

def isMulticast (n : Net) (buf : Nat → UInt8) (len ip : Nat) : Bool :=
  decide (half buf (ip + 2) ≤ len - ip) && decide ((buf ip).toNat / 16 = 4) &&
    decide ((buf ip).toNat % 16 ≤ 5) && ipChecksumOk n buf ip &&
    decide ((buf (ip + 16)).toNat / 16 = 14)

def accept (n : Net) (buf : Nat → UInt8) (len : Nat) : Option Nat :=
  if len < 14 then none
  else
    match link n buf len with
    | none => none
    | some l =>
      -- a frame that is too short and of another protocol is not handed on, either
      if len < l.ip + 28 then none
      else if vlanOk n l && decide (l.proto = 0x800) && isMulticast n buf len l.ip then some l.ip
      else none

/-- `MUTICAST_FRAME` at a place in the buffer. -/
def frameAt (buf : Nat → UInt8) (o : Nat) : Frame where
  hl := wordAt buf o
  seqnum := wordAt buf (o + 4)
  datacrc := wordAt buf (o + 8)
  imagelen := wordAt buf (o + 12)
  imagecrc := wordAt buf (o + 16)
  data k := if k < 1024 then buf (o + 62 + k) else 0

/-- `mcastUpgradeHandler` for the packet at `ip`. The address is tested once more, with the
same result. -/
def handle (b : Build) (p : Frame) (s : State) : State := (processMultcastUpgrade b p s).1

section Handle

variable {b : Build} {p : Frame} {s : State}

theorem handle_above (h : b.fwsize < p.seqnum.toNat) : handle b p s = s := by
  rw [handle, processMultcastUpgrade, if_pos h]

theorem begun_eq (h : s.begin = true) : { s with begin := true } = s := by
  rw [← h]

theorem handle_other (hb : s.begin = true) (ht : p.type = .other) : handle b p s = s := by
  have hdata : ¬p.IsData := by simp [Frame.IsData, ht]
  by_cases hseq : b.fwsize < p.seqnum.toNat
  · exact handle_above hseq
  · rw [handle, processMultcastUpgrade, if_neg hseq]
    simp only [hdata, ht, reduceCtorEq, if_false, begun_eq hb]
    split <;> rfl

theorem handle_repeated (hb : s.begin = true) (hd : p.IsData)
    (hs : s.seqNumFlag p.seqnum.toNat = true) : handle b p s = s := by
  by_cases hseq : b.fwsize < p.seqnum.toNat
  · exact handle_above hseq
  · rw [handle, processMultcastUpgrade, if_neg hseq]
    simp only [hd, hs, if_true, begun_eq hb]

theorem finishFirmwareRecieve_begin (b : Build) (s : State) :
    (finishFirmwareRecieve b s).begin = s.begin := by
  unfold finishFirmwareRecieve
  split <;> rfl

/-- Every frame with a number in range puts off the timeout. -/
theorem handle_begin (h : p.seqnum.toNat ≤ b.fwsize) : (handle b p s).begin = true := by
  rw [handle, processMultcastUpgrade, if_neg (Nat.not_lt.mpr h)]
  dsimp only
  split
  · split
    · rfl
    · split
      · rfl
      · unfold processData
        dsimp only
        split
        · split
          · rw [finishFirmwareRecieve_begin]
            rfl
          · rfl
        · rfl
  · split
    · rfl
    · split
      · unfold processInfo
        split
        · rw [finishFirmwareRecieve_begin]
        · rfl
      · split
        · unfold processNop
          split
          · rfl
          · split <;> rfl
        · rfl

end Handle

structure Arrival where
  net : Net
  build : Build
  state : State
  frame : Nat → UInt8
  len : Nat
  ip : Nat
  accepted : accept net frame len = some ip

namespace Arrival

variable (x : Arrival)

def Begins (buf : Nat → UInt8) : Prop := ∀ i < x.len, buf i = x.frame i

def run (buf : Nat → UInt8) : State :=
  match accept x.net buf x.len with
  | none => x.state
  | some ip => handle x.build (frameAt buf (ip + 28)) x.state

def Carries : Prop := x.frame (x.ip + 9) = 17 ∧ 28 + 1086 ≤ half x.frame (x.ip + 2)

/-- Only bytes of the frame matter, and a frame that does not carry an upgrade frame
changes nothing. -/
structure OnlyReceived : Prop where
  same : ∀ buf buf', x.Begins buf → x.Begins buf' → x.run buf = x.run buf'
  short : ¬x.Carries → ∀ buf, x.Begins buf → x.run buf = x.state

/-- What was received, and zeros behind it. -/
def received (i : Nat) : UInt8 := if i < x.len then x.frame i else 0

/-- What was received of an upgrade frame is enough to ignore it: the number is too high
whatever its missing bytes are, or the receiver has begun and the type is unknown or the data
is there already. -/
inductive Ignorable : Prop where
  | above (high : x.build.fwsize < (wordAt x.received (x.ip + 32)).toNat)
  | void (room : x.ip + 32 ≤ x.len) (begun : x.state.begin = true)
      (type : (frameAt x.frame (x.ip + 28)).type = .other)
  | repeated (room : x.ip + 36 ≤ x.len) (begun : x.state.begin = true)
      (data : (frameAt x.frame (x.ip + 28)).IsData)
      (stored : x.state.seqNumFlag (frameAt x.frame (x.ip + 28)).seqnum.toNat = true)

end Arrival

-- ---------------------------------------------------------------------------
-- What is read of a frame
-- ---------------------------------------------------------------------------

section Agree

variable {n : Net} {buf buf' : Nat → UInt8} {len : Nat}

theorem half_congr (h : ∀ i < len, buf i = buf' i) (ho : o + 1 < len) :
    half buf o = half buf' o := by
  rw [half, half, h o (by omega), h (o + 1) ho]

theorem wordAt_congr (h : ∀ i < len, buf i = buf' i) (ho : o + 3 < len) :
    wordAt buf o = wordAt buf' o := by
  rw [wordAt, wordAt, h o (by omega), h (o + 1) (by omega), h (o + 2) (by omega), h (o + 3) ho]

theorem headerWord_congr (h : ∀ i < len, buf i = buf' i) (hi : ip + 2 * i + 1 < len) :
    headerWord n buf ip i = headerWord n buf' ip i := by
  rw [headerWord, headerWord, half_congr h hi, h (ip + 2 * i + 1) hi, h (ip + 2 * i) (by omega)]

theorem ipChecksumOk_congr (h : ∀ i < len, buf i = buf' i) (hip : ip + 20 ≤ len) :
    ipChecksumOk n buf ip = ipChecksumOk n buf' ip := by
  have hwords : (List.range 10).map (headerWord n buf ip) =
      (List.range 10).map (headerWord n buf' ip) := by
    refine List.map_congr_left fun i hi => headerWord_congr h ?_
    have := List.mem_range.mp hi
    omega
  rw [ipChecksumOk, ipChecksumOk, hwords]

theorem isMulticast_congr (h : ∀ i < len, buf i = buf' i) (hip : ip + 28 ≤ len) :
    isMulticast n buf len ip = isMulticast n buf' len ip := by
  rw [isMulticast, isMulticast, half_congr h (by omega), ipChecksumOk_congr h (by omega),
    h ip (by omega), h (ip + 16) (by omega)]

theorem link_congr (h : ∀ i < len, buf i = buf' i) (hlen : 28 ≤ len) :
    link n buf len = link n buf' len := by
  have hhalf : ∀ o ≤ 20, half buf o = half buf' o := fun o ho => half_congr h (by omega)
  rw [link, link, hhalf 12 (by omega), hhalf 14 (by omega), hhalf 16 (by omega),
    hhalf 20 (by omega)]

theorem accept_of_agree (h : ∀ i < len, buf i = buf' i) (ha : accept n buf len = some ip) :
    accept n buf' len = some ip := by
  unfold accept at ha ⊢
  split at ha
  · cases ha
  next hlen =>
    rw [if_neg hlen]
    cases hl : link n buf len with
    | none =>
      rw [hl] at ha
      cases ha
    | some l =>
      rw [hl] at ha
      dsimp only at ha
      split at ha
      · cases ha
      next hip =>
        have hlink : link n buf' len = some l := (link_congr h (by omega)).symm.trans hl
        rw [hlink]
        dsimp only
        rw [if_neg hip, ← isMulticast_congr h (by omega)]
        exact ha

theorem frameAt_congr (h : ∀ i < len, buf i = buf' i) (ho : o + 1086 ≤ len) :
    frameAt buf o = frameAt buf' o := by
  have hdata : (fun k => if k < 1024 then buf (o + 62 + k) else 0) =
      fun k => if k < 1024 then buf' (o + 62 + k) else 0 := by
    funext k
    by_cases hk : k < 1024
    · rw [if_pos hk, if_pos hk, h _ (by omega)]
    · rw [if_neg hk, if_neg hk]
  rw [frameAt, frameAt, wordAt_congr h (by omega), wordAt_congr h (by omega),
    wordAt_congr h (by omega), wordAt_congr h (by omega), wordAt_congr h (by omega), hdata]

end Agree

theorem le_of_accept {n : Net} {buf : Nat → UInt8} {len ip : Nat}
    (h : accept n buf len = some ip) : half buf (ip + 2) + ip ≤ len := by
  unfold accept at h
  split at h
  · cases h
  · split at h
    · cases h
    · split at h
      · cases h
      next hlen =>
        split at h
        next hall =>
          cases h
          simp only [isMulticast, Bool.and_eq_true, decide_eq_true_eq] at hall
          have := hall.2.1.1.1.1
          omega
        next => cases h

namespace Arrival

variable {x : Arrival}

theorem run_eq (h : x.Begins buf) :
    x.run buf = handle x.build (frameAt buf (x.ip + 28)) x.state := by
  have ha : accept x.net buf x.len = some x.ip :=
    accept_of_agree (fun i hi => (h i hi).symm) x.accepted
  rw [run, ha]

theorem Carries.run_eq (h : x.Carries) (hb : x.Begins buf) :
    x.run buf = handle x.build (frameAt x.frame (x.ip + 28)) x.state := by
  have hlen := le_of_accept x.accepted
  have hroom := h.2
  rw [Arrival.run_eq hb, frameAt_congr hb (by omega)]

theorem begins_received : x.Begins x.received := fun _ hi => if_pos hi

/-- No missing byte is less than 0. -/
theorem received_le (h : x.Begins buf) (o : Nat) :
    (wordAt x.received o).toNat ≤ (wordAt buf o).toNat := by
  have hbyte : ∀ i, (x.received i).toNat ≤ (buf i).toNat := by
    intro i
    by_cases hi : i < x.len
    · rw [received, if_pos hi, h i hi]
    · rw [received, if_neg hi]
      exact Nat.zero_le _
  rw [wordAt, wordAt, packWord_toNat, packWord_toNat]
  have h0 := hbyte o
  have h1 := hbyte (o + 1)
  have h2 := hbyte (o + 2)
  have h3 := hbyte (o + 3)
  omega

theorem hl_eq (h : x.Begins buf) (room : x.ip + 32 ≤ x.len) :
    (frameAt buf (x.ip + 28)).hl = (frameAt x.frame (x.ip + 28)).hl :=
  wordAt_congr h (by omega)

theorem type_eq (h : x.Begins buf) (room : x.ip + 32 ≤ x.len) :
    (frameAt buf (x.ip + 28)).type = (frameAt x.frame (x.ip + 28)).type := by
  rw [Frame.type, Frame.type, hl_eq h room]

theorem seqnum_eq (h : x.Begins buf) (room : x.ip + 36 ≤ x.len) :
    (frameAt buf (x.ip + 28)).seqnum = (frameAt x.frame (x.ip + 28)).seqnum :=
  wordAt_congr h (by omega)

/-- The receiver does nothing with it, whatever follows in the buffer. -/
theorem Ignorable.run_eq (h : x.Ignorable) (hb : x.Begins buf) : x.run buf = x.state := by
  rw [Arrival.run_eq hb]
  cases h with
  | above high => exact handle_above (Nat.lt_of_lt_of_le high (received_le hb _))
  | void room begun type => exact handle_other begun ((type_eq hb room).trans type)
  | repeated room begun data stored =>
    refine handle_repeated begun ?_ ?_
    · rw [Frame.IsData, type_eq hb (by omega)]
      exact data
    · rw [seqnum_eq hb room]
      exact stored

def emptyPacket (i : Nat) : UInt8 :=
  if i = 12 then 0x08 else if i = 14 then 0x45 else if i = 17 then 0x1c
  else if i = 23 then 0x11 else if i = 24 then 0xDA else if i = 25 then 0xD0
  else if i = 30 then 0xE0 else if i = 33 then 0x01 else 0

def emptyPacketBuffer (i : Nat) : UInt8 :=
  if i = 42 then 0x20 else if i = 49 then 0x01 else emptyPacket i

theorem emptyPacket_accepted : accept ⟨0xFFFF, 0xFFFF, true⟩ emptyPacket 42 = some 14 := by
  decide +kernel

def emptyArrival : Arrival where
  net := ⟨0xFFFF, 0xFFFF, true⟩
  build := ⟨false, false⟩
  state := { Traffic.blank with seqNumFlag := fun _ => true }
  frame := emptyPacket
  len := 42
  ip := 14
  accepted := emptyPacket_accepted

end Arrival

end BismarckPreloader.Multicast
