import BismarckPreloader.Lib.Loops

/-!
# The XMODEM receiver

`cli_xmodemReceive` of `cli_xmodem_nand.c` as a machine that takes one result of `_inbyte`
per step: a byte, or `none` for a time-out. The phases are the places at which the function
calls `_inbyte`: the sixteen tries for a start byte, the wait for a second CAN, the body of a
packet, and `flushinput` with what follows it.

The page buffer `w_buf_v` is the list of its first `bytes_in_buf` bytes. The read-back buffer
lies `writeRoom` bytes behind it, so that reading a page back overwrites what stands there.
The bad block table has eight entries; a look behind it halts the machine.
-/

namespace BismarckPreloader.Xmodem

-- ---------------------------------------------------------------------------
-- The check of a packet
-- ---------------------------------------------------------------------------

def crc16tab : List UInt16 :=
  [0x0000, 0x1021, 0x2042, 0x3063, 0x4084, 0x50a5, 0x60c6, 0x70e7,
   0x8108, 0x9129, 0xa14a, 0xb16b, 0xc18c, 0xd1ad, 0xe1ce, 0xf1ef,
   0x1231, 0x0210, 0x3273, 0x2252, 0x52b5, 0x4294, 0x72f7, 0x62d6,
   0x9339, 0x8318, 0xb37b, 0xa35a, 0xd3bd, 0xc39c, 0xf3ff, 0xe3de,
   0x2462, 0x3443, 0x0420, 0x1401, 0x64e6, 0x74c7, 0x44a4, 0x5485,
   0xa56a, 0xb54b, 0x8528, 0x9509, 0xe5ee, 0xf5cf, 0xc5ac, 0xd58d,
   0x3653, 0x2672, 0x1611, 0x0630, 0x76d7, 0x66f6, 0x5695, 0x46b4,
   0xb75b, 0xa77a, 0x9719, 0x8738, 0xf7df, 0xe7fe, 0xd79d, 0xc7bc,
   0x48c4, 0x58e5, 0x6886, 0x78a7, 0x0840, 0x1861, 0x2802, 0x3823,
   0xc9cc, 0xd9ed, 0xe98e, 0xf9af, 0x8948, 0x9969, 0xa90a, 0xb92b,
   0x5af5, 0x4ad4, 0x7ab7, 0x6a96, 0x1a71, 0x0a50, 0x3a33, 0x2a12,
   0xdbfd, 0xcbdc, 0xfbbf, 0xeb9e, 0x9b79, 0x8b58, 0xbb3b, 0xab1a,
   0x6ca6, 0x7c87, 0x4ce4, 0x5cc5, 0x2c22, 0x3c03, 0x0c60, 0x1c41,
   0xedae, 0xfd8f, 0xcdec, 0xddcd, 0xad2a, 0xbd0b, 0x8d68, 0x9d49,
   0x7e97, 0x6eb6, 0x5ed5, 0x4ef4, 0x3e13, 0x2e32, 0x1e51, 0x0e70,
   0xff9f, 0xefbe, 0xdfdd, 0xcffc, 0xbf1b, 0xaf3a, 0x9f59, 0x8f78,
   0x9188, 0x81a9, 0xb1ca, 0xa1eb, 0xd10c, 0xc12d, 0xf14e, 0xe16f,
   0x1080, 0x00a1, 0x30c2, 0x20e3, 0x5004, 0x4025, 0x7046, 0x6067,
   0x83b9, 0x9398, 0xa3fb, 0xb3da, 0xc33d, 0xd31c, 0xe37f, 0xf35e,
   0x02b1, 0x1290, 0x22f3, 0x32d2, 0x4235, 0x5214, 0x6277, 0x7256,
   0xb5ea, 0xa5cb, 0x95a8, 0x8589, 0xf56e, 0xe54f, 0xd52c, 0xc50d,
   0x34e2, 0x24c3, 0x14a0, 0x0481, 0x7466, 0x6447, 0x5424, 0x4405,
   0xa7db, 0xb7fa, 0x8799, 0x97b8, 0xe75f, 0xf77e, 0xc71d, 0xd73c,
   0x26d3, 0x36f2, 0x0691, 0x16b0, 0x6657, 0x7676, 0x4615, 0x5634,
   0xd94c, 0xc96d, 0xf90e, 0xe92f, 0x99c8, 0x89e9, 0xb98a, 0xa9ab,
   0x5844, 0x4865, 0x7806, 0x6827, 0x18c0, 0x08e1, 0x3882, 0x28a3,
   0xcb7d, 0xdb5c, 0xeb3f, 0xfb1e, 0x8bf9, 0x9bd8, 0xabbb, 0xbb9a,
   0x4a75, 0x5a54, 0x6a37, 0x7a16, 0x0af1, 0x1ad0, 0x2ab3, 0x3a92,
   0xfd2e, 0xed0f, 0xdd6c, 0xcd4d, 0xbdaa, 0xad8b, 0x9de8, 0x8dc9,
   0x7c26, 0x6c07, 0x5c64, 0x4c45, 0x3ca2, 0x2c83, 0x1ce0, 0x0cc1,
   0xef1f, 0xff3e, 0xcf5d, 0xdf7c, 0xaf9b, 0xbfba, 0x8fd9, 0x9ff8,
   0x6e17, 0x7e36, 0x4e55, 0x5e74, 0x2e93, 0x3eb2, 0x0ed1, 0x1ef0]

def crc16Ccitt (buf : List UInt8) : UInt16 :=
  buf.foldl (fun crc b =>
    (crc <<< 8) ^^^ crc16tab.getD (((crc >>> 8) ^^^ b.toUInt16) &&& 0x00FF).toNat 0) 0

def check (crc : Bool) (buf : List UInt8) (sz : Nat) : Bool :=
  if crc then
    crc16Ccitt (buf.take sz) == ((buf.getD sz 0).toUInt16 <<< 8) + (buf.getD (sz + 1) 0).toUInt16
  else
    (buf.take sz).foldl (· + ·) 0 == buf.getD sz 0

def soh : UInt8 := 0x01
def stx : UInt8 := 0x02
def eot : UInt8 := 0x04
def ack : UInt8 := 0x06
def nak : UInt8 := 0x15
def can : UInt8 := 0x18
def letterC : UInt8 := 0x43

def maxRetrans : Int := 25

inductive Start where
  | soh
  | stx
  deriving DecidableEq

def Start.byte : Start → UInt8
  | .soh => Xmodem.soh
  | .stx => Xmodem.stx

def Start.bufsz : Start → Nat
  | .soh => 128
  | .stx => 1024

def packetLength (start : Start) (crc : Bool) : Nat := start.bufsz + (if crc then 1 else 0) + 3

structure Packet where
  start : Start
  crc : Bool
  body : List UInt8
  full : body.length = packetLength start crc
  deriving DecidableEq

namespace Packet

variable (k : Packet)

def number : UInt8 := k.body.getD 0 0
def complement : UInt8 := k.body.getD 1 0
def payload : List UInt8 := (k.body.drop 2).take k.start.bufsz

def intact : Bool := k.number == ~~~k.complement && check k.crc (k.body.drop 2) k.start.bufsz

theorem length_payload : k.payload.length = k.start.bufsz := by
  have := k.full
  simp only [packetLength] at this
  simp only [payload, List.length_take, List.length_drop]
  split at this <;> omega

end Packet

inductive After where
  | reject
  | ret (value : Int) (answer : List UInt8)
  deriving DecidableEq

inductive Phase where
  | sync (retry : Nat)
  | cancel (retry : Nat)
  | packet (start : Start) (got : List UInt8)
  | flush (after : After)
  deriving DecidableEq

/-- The variables a packet can change. `received` records every packet that arrived in full,
`programmed` every page written, with its address. -/
structure Store where
  packetno : UInt8
  len : Nat
  retrans : Int
  buf : List UInt8
  flashDest : Nat
  programmed : List (Nat × List UInt8)
  received : List Packet
  deriving DecidableEq

structure State where
  phase : Phase
  trychar : UInt8
  crc : Bool
  sent : List UInt8
  store : Store
  deriving DecidableEq

/-- The head of the inner loop: send `trychar` and wait for a start byte, or give up after
sixteen tries. -/
def State.wait (s : State) (retry : Nat) : State :=
  if retry < 16 then
    { s with phase := .sync retry, sent := s.sent ++ if s.trychar ≠ 0 then [s.trychar] else [] }
  else if s.trychar = letterC then
    { s with phase := .sync 0, trychar := nak, sent := s.sent ++ [nak] }
  else
    { s with phase := .flush (.ret (-2) [can, can, can]) }

def State.startRecv (s : State) (start : Start) : State :=
  { s with
    phase := .packet start []
    crc := if s.trychar = letterC then true else s.crc
    trychar := 0 }

-- ---------------------------------------------------------------------------
-- The receiver
-- ---------------------------------------------------------------------------

def writeRoom : Nat := 4096 + 128 + 1024

def readBack (page : Nat) (buf : List UInt8) : List UInt8 :=
  buf.take writeRoom ++ (buf.take page).take (buf.length - writeRoom)

/-- The bad block table, `bbi_table`. -/
abbrev Table := Fin 8 → Bool

/-- The loop that skips bad blocks; `none` if it looks behind the table. -/
def skipBad (table : Table) (dest : Nat) : Option Nat :=
  if h : dest / 64 < 8 then
    if table ⟨dest / 64, h⟩ then skipBad table (dest + 1) else some dest
  else none
termination_by 512 - dest

/-- A call of `cli_xmodemReceive` from page 0. `verifies` is what the comparison with the
page read back gives after the pages programmed so far. -/
structure Receiver where
  page : Nat
  destsz : Int
  table : Table
  verifies : List (Nat × List UInt8) → Bool
  unit_lt : 1024 < page
  room : page + 1024 ≤ writeRoom

namespace Receiver

variable (R : Receiver)

def keep (d : Store) (k : Packet) : Outcome Store (Int × Store) Store :=
  let count := if R.destsz - d.len > k.start.bufsz then (k.start.bufsz : Int) else R.destsz - d.len
  if 0 < count then
    let buf := d.buf ++ k.payload.take count.toNat
    if R.page ≤ buf.length then
      match skipBad R.table d.flashDest with
      | none => .halt { d with buf := buf }
      | some dest =>
        let programmed := d.programmed ++ [(dest, buf.take R.page)]
        if R.verifies programmed then
          .next { d with
            buf := (readBack R.page buf).drop R.page
            flashDest := dest + 1
            programmed := programmed
            len := d.len + count.toNat }
        else
          .ret (-100, { d with buf := buf, flashDest := dest, programmed := programmed })
    else
      .next { d with buf := buf, len := d.len + count.toNat }
  else
    .next d

def answer (s : State) (d : Store) : State :=
  let d := { d with retrans := d.retrans - 1 }
  if d.retrans ≤ 0 then
    { s with store := d, phase := .flush (.ret (-3) [can, can, can]) }
  else
    State.wait { s with store := d, sent := s.sent ++ [ack] } 0

/-- A packet that arrived in full. The expected number is compared as a byte, the one before
it as an integer, as C promotes `packetno-1`. -/
def packet (s : State) (k : Packet) : Outcome State (Int × State) State :=
  let d := { s.store with received := s.store.received ++ [k] }
  if k.number = ~~~k.complement ∧
      (k.number = d.packetno ∨ (k.number.toNat : Int) = (d.packetno.toNat : Int) - 1) ∧
      check k.crc (k.body.drop 2) k.start.bufsz then
    if k.number = d.packetno then
      match R.keep d k with
      | .next d => .next (answer s { d with packetno := d.packetno + 1, retrans := maxRetrans + 1 })
      | .ret (v, d) => .ret (v, { s with store := d })
      | .halt d => .halt { s with store := d }
    else
      .next (answer s d)
  else
    .next { s with store := d, phase := .flush .reject }

/-- One result of `_inbyte`. -/
def step (s : State) (e : Option UInt8) : Outcome State (Int × State) State :=
  match s.phase, e with
  | .sync retry, none => .next (s.wait (retry + 1))
  | .sync retry, some c =>
    if c = soh then .next (s.startRecv .soh)
    else if c = stx then .next (s.startRecv .stx)
    else if c = eot then .next { s with phase := .flush (.ret s.store.len [ack]) }
    else if c = can then .next { s with phase := .cancel retry }
    else .next (s.wait (retry + 1))
  | .cancel retry, e =>
    if e = some can then .next { s with phase := .flush (.ret (-1) [ack]) }
    else .next (s.wait (retry + 1))
  | .packet _ _, none => .next { s with phase := .flush .reject }
  | .packet start got, some b =>
    if h : (got ++ [b]).length = packetLength start s.crc then
      R.packet s ⟨start, s.crc, got ++ [b], h⟩
    else
      .next { s with phase := .packet start (got ++ [b]) }
  | .flush _, some _ => .next s
  | .flush .reject, none => .next (State.wait { s with sent := s.sent ++ [nak] } 0)
  | .flush (.ret v answer), none => .ret (v, { s with sent := s.sent ++ answer })

def initStore : Store where
  packetno := 1
  len := 0
  retrans := maxRetrans
  buf := []
  flashDest := 0
  programmed := []
  received := []

def init : State :=
  State.wait
    { phase := .sync 0, trychar := letterC, crc := false, sent := [], store := initStore } 0

/-- `cli_xmodemReceive` on the results of `_inbyte`; `.next` while it waits for more. -/
def receive (input : List (Option UInt8)) : Outcome State (Int × State) State :=
  Scan.run R.step init input

end Receiver

end BismarckPreloader.Xmodem
