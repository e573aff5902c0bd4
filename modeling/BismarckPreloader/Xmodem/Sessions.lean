import BismarckPreloader.Xmodem.Transfer

/-!
# Sessions with an XMODEM sender

`run_feed` takes the receiver through a whole packet, and `run_zeros` through any number of
packets from a sender that makes no mistakes.

What is still in the page buffer when the sender is done is never programmed: a transfer is
stored in full exactly if it is a whole number of pages. The number before the one expected
is computed as an integer and compared with a byte, so that after 255 packets, when 0 is
expected, a repeat of packet 255 is not recognised as one.
-/

namespace BismarckPreloader.Xmodem

def Packet.feed (k : Packet) : List (Option UInt8) := (k.start.byte :: k.body).map some

namespace Receiver

variable (R : Receiver)

theorem run_body {start : Start} (s : State) (got : List UInt8) {bs : List UInt8} (hne : bs ≠ [])
    (hl : (got ++ bs).length = packetLength start s.crc) :
    Scan.run R.step { s with phase := .packet start got } (bs.map some) =
      R.packet { s with phase := .packet start (got ++ bs.dropLast) }
        ⟨start, s.crc, got ++ bs, hl⟩ := by
  induction bs generalizing got with
  | nil => exact absurd rfl hne
  | cons b bs ih =>
    cases bs with
    | nil =>
      have hstep : R.step { s with phase := .packet start got } (some b) =
          R.packet { s with phase := .packet start got } ⟨start, s.crc, got ++ [b], hl⟩ :=
        dif_pos hl
      rw [List.dropLast_singleton, List.append_nil, List.map_singleton]
      cases ho : R.packet { s with phase := .packet start got } ⟨start, s.crc, got ++ [b], hl⟩ with
      | next t => exact Scan.run_cons_next (hstep.trans ho)
      | ret r => exact Scan.run_cons_ret (hstep.trans ho)
      | halt e => exact Scan.run_cons_halt (hstep.trans ho)
    | cons c cs =>
      have hlt : (got ++ [b]).length ≠ packetLength start s.crc := by
        rw [← hl]
        simp
      have hstep : R.step { s with phase := .packet start got } (some b) =
          .next { s with phase := .packet start (got ++ [b]) } := dif_neg hlt
      have hl' : (got ++ [b] ++ (c :: cs)).length = packetLength start s.crc := by
        rw [← hl, List.append_assoc, List.singleton_append]
      rw [List.map_cons, Scan.run_cons_next hstep, ih (got ++ [b]) (List.cons_ne_nil c cs) hl']
      simp only [List.append_assoc, List.singleton_append, List.dropLast_cons_cons]

theorem run_feed {s : State} {k : Packet} {retry : Nat} (hs : s.phase = .sync retry)
    (hk : k.crc = (s.startRecv k.start).crc) :
    Scan.run R.step s k.feed =
      R.packet { s.startRecv k.start with phase := .packet k.start k.body.dropLast } k := by
  obtain ⟨start, crc, body, full⟩ := k
  dsimp only at hk
  subst hk
  have hstep : R.step s (some start.byte) = .next (s.startRecv start) := by
    obtain ⟨phase, trychar, crc, sent, store⟩ := s
    dsimp only at hs
    subst hs
    cases start <;> rfl
  have hne : body ≠ [] := by
    rintro rfl
    simp only [packetLength, List.length_nil] at full
    omega
  rw [Packet.feed, List.map_cons, Scan.run_cons_next hstep]
  exact R.run_body (s.startRecv start) [] hne full

end Receiver

-- ---------------------------------------------------------------------------
-- A sender without mistakes
-- ---------------------------------------------------------------------------

def zeroPacket (start : Start) (n : Nat) : Packet where
  start := start
  crc := true
  body := UInt8.ofNat n :: ~~~UInt8.ofNat n :: List.replicate (start.bufsz + 2) 0
  full := by simp [packetLength]

theorem crc16Ccitt_zeros (n : Nat) : crc16Ccitt (List.replicate n 0) = 0 := by
  rw [crc16Ccitt]
  induction n with
  | zero => rfl
  | succ n ih => exact ih

theorem zeroPacket_intact (start : Start) (n : Nat) : (zeroPacket start n).intact = true := by
  have hcheck : check true (List.replicate (start.bufsz + 2) 0) start.bufsz = true := by
    rw [check, if_pos rfl, List.take_replicate, Nat.min_eq_left (by omega), crc16Ccitt_zeros]
    simp
  have hn : (zeroPacket start n).number = ~~~(zeroPacket start n).complement := by
    simp [zeroPacket, Packet.number, Packet.complement]
  rw [Packet.intact, Bool.and_eq_true]
  exact ⟨beq_iff_eq.mpr hn, hcheck⟩

def zeroPackets (start : Start) (n : Nat) : List Packet :=
  (List.range n).map fun i => zeroPacket start (1 + i)

theorem zeroPackets_succ (start : Start) (n : Nat) :
    zeroPackets start (n + 1) = zeroPackets start n ++ [zeroPacket start (1 + n)] := by
  simp [zeroPackets, List.range_succ]

@[simp] theorem length_zeroPackets (start : Start) (n : Nat) : (zeroPackets start n).length = n := by
  simp [zeroPackets]

@[simp] theorem accepted_zeroPackets (start : Start) (n : Nat) :
    accepted (zeroPackets start n) = zeroPackets start n := by
  induction n with
  | zero => rfl
  | succ n ih =>
    rw [accepted] at ih ⊢
    rw [zeroPackets_succ, acceptedFrom_concat, ih, length_zeroPackets, if_pos]
    exact ⟨zeroPacket_intact start (1 + n), rfl⟩

theorem length_delivered_zeroPackets (start : Start) (n : Nat) :
    (delivered (zeroPackets start n)).length = n * start.bufsz := by
  rw [delivered, accepted_zeroPackets]
  induction n with
  | zero => simp [zeroPackets]
  | succ n ih =>
    rw [zeroPackets_succ, List.map_append, List.flatten_append, List.length_append, ih,
      List.map_singleton, List.flatten_singleton, Packet.length_payload, Nat.succ_mul]
    rfl

def zeroStream (start : Start) (n : Nat) : List (Option UInt8) :=
  (zeroPackets start n).flatMap Packet.feed

theorem zeroStream_succ (start : Start) (n : Nat) :
    zeroStream start (n + 1) = zeroStream start n ++ (zeroPacket start (1 + n)).feed := by
  rw [zeroStream, zeroPackets_succ, List.flatMap_append, List.flatMap_singleton, zeroStream]

namespace Receiver

variable (R : Receiver)

structure Follows (start : Start) (n : Nat) (s : State) : Prop where
  sound : Sound R s
  waiting : s.phase = .sync 0
  received : s.store.received = zeroPackets start n
  crc : ∀ st, (s.startRecv st).crc = true
  cursor : s.store.flashDest = s.store.programmed.length
  retrans : 1 < s.store.retrans

theorem skipBad_of_good {table : Table} {dest : Nat} (hd : dest < 64) (ht : table 0 = false) :
    skipBad table dest = some dest := by
  have h0 : dest / 64 = 0 := Nat.div_eq_of_lt hd
  rw [skipBad, dif_pos (by omega), if_neg]
  simp only [h0]
  exact ne_true_of_eq_false ht

theorem startRecv_crc {s : State} {start : Start} (ht : s.trychar = 0) :
    (s.startRecv start).crc = s.crc := by
  simp only [State.startRecv, ht, show ¬ (0 : UInt8) = letterC by decide, if_false]

theorem answer_eq {s : State} {d : Store} (ht : s.trychar = 0) (hd : 1 < d.retrans) :
    answer s d = { s with
      phase := .sync 0
      sent := s.sent ++ [ack]
      store := { d with retrans := d.retrans - 1 } } := by
  rw [answer]
  dsimp only
  rw [if_neg (by omega), State.wait, if_pos (by omega)]
  dsimp only
  rw [if_neg (by rw [ht]; decide), List.append_nil]

theorem Follows.room {R : Receiver} {start : Start} {n : Nat} {s : State} (h : R.Follows start n s)
    (hn : (n + 1) * start.bufsz < 65 * R.page)
    (hp : R.page ≤ (R.filled s.store (zeroPacket start (1 + n))).length) :
    s.store.flashDest < 64 := by
  have hlen := h.sound.ledger.length
  have hkept : R.kept s.store.received ≤ n * start.bufsz := by
    rw [kept, h.received, length_delivered_zeroPackets]
    omega
  have hfill : (R.filled s.store (zeroPacket start (1 + n))).length ≤
      s.store.buf.length + start.bufsz := by
    rw [filled, List.length_append, length_payload_take]
    exact Nat.add_le_add_left (Nat.min_le_right _ _) _
  rw [h.cursor]
  by_contra hge
  have : 64 * R.page ≤ s.store.programmed.length * R.page := Nat.mul_le_mul_right _ (by omega)
  rw [Nat.succ_mul] at hn
  omega

theorem packet_fresh {R : Receiver} {s : State} {k : Packet} (hs : s.store.buf.length < R.page)
    (hk : Fresh s.store k) (hv : ∀ ps, R.verifies ps = true)
    (hskip : R.page ≤ (R.filled s.store k).length →
      skipBad R.table s.store.flashDest = some s.store.flashDest) :
    ∃ d : Store, R.packet s k =
        .next (answer s { d with packetno := d.packetno + 1, retrans := maxRetrans + 1 }) ∧
      d.received = s.store.received ++ [k] ∧
      (d.flashDest = s.store.flashDest ∧ d.programmed = s.store.programmed ∨
        d.flashDest = s.store.flashDest + 1 ∧ ∃ p, d.programmed = s.store.programmed ++ [p]) := by
  have hkept := keep_kept (R := R) (k := k)
    (d := { s.store with received := s.store.received ++ [k] }) hs
  have htaken := packet_taken (R := R) (s := s) (k := k)
  generalize R.packet s k = o at htaken
  cases htaken with
  | rejected hf => exact absurd hk hf
  | repeated hf => exact absurd hk hf
  | kept d hf hd =>
    rw [hd] at hkept
    refine ⟨d, rfl, keep_received hd hs, ?_⟩
    cases hkept with
    | waits => exact .inl ⟨rfl, rfl⟩
    | programs dest hp hb =>
      cases hb.symm.trans (hskip hp)
      exact .inr ⟨rfl, _, rfl⟩
  | ended v d hf hd =>
    rw [hd] at hkept
    cases hkept with
    | differs dest hp hb hdiff => simp [hv] at hdiff
  | halted d hf hd =>
    rw [hd] at hkept
    cases hkept with
    | leaves hp hb => cases hb.symm.trans (hskip hp)

theorem packet_repeated {s : State} {k : Packet}
    (hi : k.number = ~~~k.complement ∧ check k.crc (k.body.drop 2) k.start.bufsz)
    (hne : k.number ≠ s.store.packetno)
    (hb : (k.number.toNat : Int) = (s.store.packetno.toNat : Int) - 1) :
    R.packet s k = .next (answer s { s.store with received := s.store.received ++ [k] }) := by
  rw [packet]
  dsimp only
  rw [if_pos ⟨hi.1, .inr hb, hi.2⟩, if_neg hne]

theorem packet_unknown {s : State} {k : Packet} (hne : k.number ≠ s.store.packetno)
    (hb : (k.number.toNat : Int) ≠ (s.store.packetno.toNat : Int) - 1) :
    R.packet s k = .next { s with
      store := { s.store with received := s.store.received ++ [k] }, phase := .flush .reject } := by
  rw [packet]
  dsimp only
  rw [if_neg fun h => h.2.1.elim hne hb]

theorem Follows.next {R : Receiver} {start : Start} {n : Nat} {s : State} (h : R.Follows start n s)
    (hv : ∀ ps, R.verifies ps = true) (ht : R.table 0 = false)
    (hn : (n + 1) * start.bufsz < 65 * R.page) :
    ∃ t, Scan.run R.step s (zeroPacket start (1 + n)).feed = .next t ∧ R.Follows start (n + 1) t := by
  have hrun := R.run_feed (k := zeroPacket start (1 + n)) h.waiting (h.crc _).symm
  have hl := h.sound.ledger
  have hfresh : Fresh s.store (zeroPacket start (1 + n)) := by
    refine ⟨zeroPacket_intact start (1 + n), ?_⟩
    rw [hl.number, h.received, accepted_zeroPackets, length_zeroPackets]
    rfl
  have hbase : Steady R { s.startRecv start with
      phase := .packet start (zeroPacket start (1 + n)).body.dropLast } :=
    (h.sound.startRecv start).congr rfl rfl rfl
  have hfine := packet_fine (k := zeroPacket start (1 + n)) hbase rfl (h.crc start).symm
  obtain ⟨d, hd, hrec, hcur⟩ := packet_fresh (s := { s.startRecv start with
      phase := .packet start (zeroPacket start (1 + n)).body.dropLast })
    hl.short hfresh hv (fun hp => skipBad_of_good (h.room hn hp) ht)
  rw [hd, answer_eq rfl (show (1 : Int) < maxRetrans + 1 by decide)] at hfine
  refine ⟨_, hrun.trans (hd.trans (congrArg _ (answer_eq rfl
    (show (1 : Int) < maxRetrans + 1 by decide)))), hfine, rfl, ?_, ?_, ?_,
    show (1 : Int) < maxRetrans + 1 - 1 by decide⟩
  · rw [zeroPackets_succ, ← h.received]
    exact hrec
  · intro st
    rw [startRecv_crc rfl]
    exact h.crc start
  · have hc : s.store.flashDest = s.store.programmed.length := h.cursor
    rcases hcur with ⟨h1, h2⟩ | ⟨h1, p, h2⟩
    · exact h1.trans (hc.trans (congrArg List.length h2.symm))
    · refine h1.trans ?_
      dsimp only
      rw [h2, List.length_append]
      exact congrArg (· + 1) hc

theorem follows_init (start : Start) : R.Follows start 0 init where
  sound := Steady.wait ⟨R.ledger_init, fun _ => rfl, fun k hk => absurd hk List.not_mem_nil⟩ 0
  waiting := rfl
  received := rfl
  crc := fun _ => rfl
  cursor := rfl
  retrans := by decide

theorem run_zeros (start : Start) (hv : ∀ ps, R.verifies ps = true) (ht : R.table 0 = false)
    (n : Nat) (hn : n * start.bufsz < 65 * R.page) :
    ∃ s, R.receive (zeroStream start n) = .next s ∧ R.Follows start n s := by
  induction n with
  | zero => exact ⟨init, rfl, R.follows_init start⟩
  | succ n ih =>
    obtain ⟨s, hs, hf⟩ := ih (by rw [Nat.succ_mul] at hn; omega)
    obtain ⟨t, ht', hft⟩ := hf.next hv ht hn
    refine ⟨t, ?_, hft⟩
    rw [receive, zeroStream_succ]
    exact (Scan.run_append hs).trans ht'

end Receiver

-- ---------------------------------------------------------------------------
-- The end of a transfer
-- ---------------------------------------------------------------------------

structure Transfer extends Receiver where
  input : List (Option UInt8)
  len : Int
  final : State
  ended : toReceiver.receive input = .ret (len, final)
  normal : 0 ≤ len

namespace Transfer

variable (t : Transfer)

def Stored : Prop :=
  (delivered t.final.store.received).take t.len.toNat <+:
    (t.final.store.programmed.map Prod.snd).flatten

theorem ledger : t.Ledger t.final.store ∧ t.len = t.final.store.len := by
  have hf := t.receive_fine t.input
  have hn := t.normal
  rw [t.ended] at hf
  rcases hf with hv | ⟨hl, hv⟩
  · omega
  · exact ⟨hl, by omega⟩

theorem stored_iff_empty : t.Stored ↔ t.final.store.buf.length = 0 := by
  obtain ⟨hl, hlen⟩ := t.ledger
  rw [Stored, hlen, Int.toNat_natCast, ← hl.content]
  constructor
  · intro h
    have := h.length_le
    rw [List.length_append] at this
    omega
  · intro h
    exact ⟨[], by simp only [List.append_nil, List.length_eq_zero_iff.mp h]⟩

theorem page_dvd_iff_empty :
    t.page ∣ t.kept t.final.store.received ↔ t.final.store.buf.length = 0 := by
  obtain ⟨hl, -⟩ := t.ledger
  rw [← hl.length, Nat.dvd_add_right (Nat.dvd_mul_left _ _)]
  constructor
  · intro h
    exact Nat.eq_zero_of_dvd_of_lt h hl.short
  · intro h
    rw [h]
    exact Nat.dvd_zero _

/-- Exactly transfers of whole pages are stored in full. -/
theorem received_iff : t.Stored ↔ t.page ∣ t.kept t.final.store.received :=
  t.stored_iff_empty.trans t.page_dvd_iff_empty.symm

end Transfer

/-- Pages of 2 KiB with 64 spare bytes, four good blocks, and a flash that keeps what is
programmed. -/
def smallPages : Receiver where
  page := 2112
  destsz := 4 * 64 * 2112
  table := fun _ => false
  verifies := fun _ => true
  unit_lt := by decide
  room := by decide

/-- A single packet is acknowledged and not stored. -/
theorem Transfer.onePacket_not_stored : ∃ t : Transfer,
    t.toReceiver = smallPages ∧ t.input = zeroStream .soh 1 ++ [some eot, none] ∧ ¬ t.Stored := by
  obtain ⟨s, hs, hf⟩ := smallPages.run_zeros .soh (fun _ => rfl) rfl 1 (by decide)
  have hwait : s = { s with phase := .sync 0 } := by rw [← hf.waiting]
  have heot : smallPages.receive (zeroStream .soh 1 ++ [some eot, none]) =
      .ret (s.store.len, { s with
        phase := .flush (.ret s.store.len [ack]), sent := s.sent ++ [ack] }) := by
    rw [Receiver.receive, Scan.run_append hs, hwait]
    rfl
  refine ⟨⟨smallPages, _, _, _, heot, Int.natCast_nonneg _⟩, rfl, rfl, fun h => ?_⟩
  have hdvd : 2112 ∣ smallPages.kept s.store.received :=
    (Transfer.page_dvd_iff_empty _).mpr ((Transfer.stored_iff_empty _).mp h)
  rw [Receiver.kept, hf.received, length_delivered_zeroPackets] at hdvd
  revert hdvd
  decide

-- ---------------------------------------------------------------------------
-- Lost acknowledgements
-- ---------------------------------------------------------------------------

theorem acceptedFrom_last {n : Nat} {ks : List Packet} {k : Packet}
    (h : (acceptedFrom n ks).getLast? = some k) :
    k ∈ ks ∧ k.intact ∧ k.number = UInt8.ofNat (n + (acceptedFrom n ks).length - 1) := by
  induction ks generalizing n with
  | nil => simp [acceptedFrom] at h
  | cons x xs ih =>
    rw [acceptedFrom] at h ⊢
    by_cases hx : x.intact ∧ x.number = UInt8.ofNat n
    · rw [if_pos hx] at h ⊢
      cases hrest : acceptedFrom (n + 1) xs with
      | nil =>
        rw [hrest, List.getLast?_singleton, Option.some.injEq] at h
        subst h
        exact ⟨List.mem_cons_self, hx⟩
      | cons y ys =>
        rw [hrest, List.getLast?_cons_cons, ← hrest] at h
        obtain ⟨hmem, hi, hnum⟩ := ih h
        refine ⟨List.mem_cons_of_mem x hmem, hi, ?_⟩
        rw [hnum, ← hrest, List.length_cons]
        congr 1
        omega
    · rw [if_neg hx] at h ⊢
      obtain ⟨hmem, hrest⟩ := ih h
      exact ⟨List.mem_cons_of_mem x hmem, hrest⟩

/-- The receiver waits for the next packet, has retransmissions left, and the sender is about
to send the last packet taken once more. -/
structure Repeat extends Receiver where
  input : List (Option UInt8)
  state : State
  retry : Nat
  last : Packet
  reached : toReceiver.receive input = .next state
  waiting : state.phase = .sync retry
  taken : (accepted state.store.received).getLast? = some last
  budget : 1 < state.store.retrans

namespace Repeat

variable (x : Repeat)

def count : Nat := (accepted x.state.store.received).length

def Acknowledged : Prop :=
  ∃ s, Scan.run x.step x.state x.last.feed = .next s ∧ s.sent = x.state.sent ++ [ack] ∧
    s.store = { x.state.store with
      received := x.state.store.received ++ [x.last], retrans := x.state.store.retrans - 1 }

theorem sound : Receiver.Sound x.toReceiver x.state := by
  have hf := x.receive_fine x.input
  rw [x.reached] at hf
  exact hf

theorem trychar_eq : x.state.trychar = 0 := by
  by_contra hne
  have h := x.taken
  rw [x.sound.asking hne] at h
  simp [accepted, acceptedFrom] at h

theorem last_spec : x.last.crc = x.state.crc ∧ x.last.intact ∧
    x.last.number = UInt8.ofNat x.count := by
  obtain ⟨hmem, hi, hnum⟩ := acceptedFrom_last x.taken
  refine ⟨x.sound.mode x.last hmem, hi, ?_⟩
  rw [hnum, Nat.add_sub_cancel_left]
  rfl

theorem number_before (n : Nat) :
    ((UInt8.ofNat n).toNat : Int) = ((UInt8.ofNat (1 + n)).toNat : Int) - 1 ↔ n % 256 ≠ 255 := by
  rw [UInt8.toNat_ofNat', UInt8.toNat_ofNat']
  omega

theorem last_ne_expected : x.last.number ≠ x.state.store.packetno := by
  rw [x.last_spec.2.2, x.sound.ledger.number]
  intro h
  have := congrArg UInt8.toNat h
  rw [UInt8.toNat_ofNat', UInt8.toNat_ofNat', count] at this
  omega

theorem last_before_iff :
    (x.last.number.toNat : Int) = (x.state.store.packetno.toNat : Int) - 1 ↔
      x.count % 256 ≠ 255 := by
  rw [x.last_spec.2.2, x.sound.ledger.number]
  exact number_before x.count

theorem run_last : Scan.run x.step x.state x.last.feed =
    x.packet { x.state.startRecv x.last.start with
      phase := .packet x.last.start x.last.body.dropLast } x.last :=
  x.run_feed x.waiting (x.last_spec.1.trans (Receiver.startRecv_crc x.trychar_eq).symm)

theorem acknowledged (h : x.count % 256 ≠ 255) : x.Acknowledged := by
  have hi : x.last.number = ~~~x.last.complement ∧
      check x.last.crc (x.last.body.drop 2) x.last.start.bufsz := by
    simpa [Packet.intact] using x.last_spec.2.1
  rw [Acknowledged, run_last, x.packet_repeated (s := { x.state.startRecv x.last.start with
    phase := .packet x.last.start x.last.body.dropLast }) hi x.last_ne_expected
    (x.last_before_iff.mpr h)]
  exact ⟨_, congrArg _ (Receiver.answer_eq rfl x.budget), rfl, rfl⟩

theorem not_acknowledged (h : x.count % 256 = 255) : ¬ x.Acknowledged := by
  rw [Acknowledged, run_last, x.packet_unknown (s := { x.state.startRecv x.last.start with
    phase := .packet x.last.start x.last.body.dropLast }) x.last_ne_expected
    (fun hb => x.last_before_iff.mp hb h)]
  rintro ⟨s, hs, hsent, -⟩
  cases hs
  simp [State.startRecv] at hsent

/-- Exactly after 255 packets, modulo 256, a repeat is not recognised. -/
theorem acknowledged_iff : x.Acknowledged ↔ x.count % 256 ≠ 255 :=
  ⟨fun ha h => x.not_acknowledged h ha, x.acknowledged⟩

end Repeat

/-- After 255 packets the repeat of the last one is not acknowledged. -/
theorem Repeat.wrapped_not_acknowledged : ∃ x : Repeat,
    x.toReceiver = smallPages ∧ x.input = zeroStream .soh 255 ∧ ¬ x.Acknowledged := by
  obtain ⟨s, hs, hf⟩ := smallPages.run_zeros .soh (fun _ => rfl) rfl 255 (by decide)
  have hacc : accepted s.store.received = zeroPackets .soh 255 := by
    rw [hf.received, accepted_zeroPackets]
  have hlast : (accepted s.store.received).getLast? = some (zeroPacket .soh 255) := by
    rw [hacc, zeroPackets_succ, List.getLast?_concat]
  refine ⟨⟨smallPages, _, s, 0, _, hs, hf.waiting, hlast, hf.retrans⟩, rfl, rfl, fun h => ?_⟩
  refine Repeat.not_acknowledged _ ?_ h
  rw [Repeat.count]
  dsimp only
  rw [hacc, length_zeroPackets]

end BismarckPreloader.Xmodem
