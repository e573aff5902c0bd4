import BismarckPreloader.Xmodem.Receive

/-!
# What an XMODEM transfer keeps

`accepted` is the sender's side of a transfer: of the packets that arrived, the first intact
one numbered 1, then the first intact one numbered 2, and so on, numbers being bytes. `Ledger`
says that pages programmed and page buffer are together the first `len` bytes of their
payloads; a step keeps it, so it holds after every packet of every run.
-/

namespace BismarckPreloader.Xmodem

def acceptedFrom (n : Nat) : List Packet → List Packet
  | [] => []
  | k :: ks =>
    if k.intact ∧ k.number = UInt8.ofNat n then k :: acceptedFrom (n + 1) ks
    else acceptedFrom n ks

def accepted (ks : List Packet) : List Packet := acceptedFrom 1 ks

def delivered (ks : List Packet) : List UInt8 := ((accepted ks).map Packet.payload).flatten

theorem acceptedFrom_concat (n : Nat) (ks : List Packet) (k : Packet) :
    acceptedFrom n (ks ++ [k]) = acceptedFrom n ks ++
      if k.intact ∧ k.number = UInt8.ofNat (n + (acceptedFrom n ks).length) then [k] else [] := by
  induction ks generalizing n with
  | nil =>
    rw [List.nil_append, acceptedFrom]
    by_cases hk : k.intact ∧ k.number = UInt8.ofNat n
    · simp [acceptedFrom, hk]
    · simp only [acceptedFrom, List.length_nil, Nat.add_zero, if_neg hk, List.append_nil]
  | cons x xs ih =>
    rw [List.cons_append, acceptedFrom, acceptedFrom, ih, ih]
    by_cases hx : x.intact ∧ x.number = UInt8.ofNat n
    · rw [if_pos hx, if_pos hx, List.cons_append, List.length_cons,
        show n + ((acceptedFrom (n + 1) xs).length + 1) = n + 1 + (acceptedFrom (n + 1) xs).length
          by omega]
    · rw [if_neg hx, if_neg hx]

namespace Receiver

variable (R : Receiver)

def kept (ks : List Packet) : Nat := min R.destsz.toNat (delivered ks).length

structure Ledger (d : Store) : Prop where
  number : d.packetno = UInt8.ofNat (1 + (accepted d.received).length)
  content : (d.programmed.map Prod.snd).flatten ++ d.buf = (delivered d.received).take d.len
  len : d.len = R.kept d.received
  full : ∀ p ∈ d.programmed, p.2.length = R.page
  short : d.buf.length < R.page

def Fresh (d : Store) (k : Packet) : Prop := k.intact ∧ k.number = d.packetno

instance (d : Store) (k : Packet) : Decidable (Fresh d k) := by
  unfold Fresh
  infer_instance

-- ---------------------------------------------------------------------------
-- Delivery of one packet
-- ---------------------------------------------------------------------------

section Delivery

variable {R} {d : Store} {k : Packet}

theorem accepted_fresh (hd : R.Ledger d) (hk : Fresh d k) :
    accepted (d.received ++ [k]) = accepted d.received ++ [k] := by
  rw [accepted, acceptedFrom_concat, if_pos ⟨hk.1, hk.2.trans hd.number⟩]
  rfl

theorem accepted_other (hd : R.Ledger d) (hk : ¬ Fresh d k) :
    accepted (d.received ++ [k]) = accepted d.received := by
  rw [accepted, acceptedFrom_concat, if_neg, List.append_nil]
  · rfl
  · exact fun h => hk ⟨h.1, h.2.trans hd.number.symm⟩

theorem delivered_fresh (hd : R.Ledger d) (hk : Fresh d k) :
    delivered (d.received ++ [k]) = delivered d.received ++ k.payload := by
  simp [delivered, accepted_fresh hd hk]

theorem Ledger.other (hd : R.Ledger d) (hk : ¬ Fresh d k) (retrans : Int) :
    R.Ledger { d with received := d.received ++ [k], retrans := retrans } := by
  have ha := accepted_other hd hk
  have hdel : delivered (d.received ++ [k]) = delivered d.received := by rw [delivered, ha, delivered]
  refine ⟨?_, ?_, ?_, hd.full, hd.short⟩
  · rw [hd.number, ha]
  · rw [hd.content, hdel]
  · rw [hd.len, kept, kept, hdel]

def filled (R : Receiver) (d : Store) (k : Packet) : List UInt8 :=
  d.buf ++ k.payload.take (R.destsz - d.len).toNat

theorem length_payload_take (n : Nat) : (k.payload.take n).length = min n k.start.bufsz := by
  rw [List.length_take, k.length_payload]

theorem bufsz_le (start : Start) : start.bufsz ≤ 1024 := by
  cases start <;> decide

theorem length_filled (hs : d.buf.length < R.page) :
    (R.filled d k).length < R.page + 1024 := by
  have := bufsz_le k.start
  rw [filled, List.length_append, length_payload_take]
  omega

theorem readBack_of_room {buf : List UInt8} (h : buf.length < R.page + 1024) :
    readBack R.page buf = buf := by
  have := R.room
  rw [readBack, List.take_of_length_le (by omega), Nat.sub_eq_zero_of_le (by omega), List.take_zero,
    List.append_nil]

/-- What a new packet does: wait for more, program a page, fail to verify it, or leave the
table. -/
inductive Kept (R : Receiver) (d : Store) (k : Packet) : Outcome Store (Int × Store) Store → Prop
  | waits : (R.filled d k).length < R.page →
    Kept R d k (.next { d with
      buf := R.filled d k
      len := d.len + min (R.destsz - d.len).toNat k.start.bufsz })
  | programs (dest : Nat) : R.page ≤ (R.filled d k).length →
    skipBad R.table d.flashDest = some dest →
    R.verifies (d.programmed ++ [(dest, (R.filled d k).take R.page)]) = true →
    Kept R d k (.next { d with
      buf := (R.filled d k).drop R.page
      flashDest := dest + 1
      programmed := d.programmed ++ [(dest, (R.filled d k).take R.page)]
      len := d.len + min (R.destsz - d.len).toNat k.start.bufsz })
  | differs (dest : Nat) : R.page ≤ (R.filled d k).length →
    skipBad R.table d.flashDest = some dest →
    R.verifies (d.programmed ++ [(dest, (R.filled d k).take R.page)]) = false →
    Kept R d k (.ret (-100, { d with
      buf := R.filled d k
      flashDest := dest
      programmed := d.programmed ++ [(dest, (R.filled d k).take R.page)] }))
  | leaves : R.page ≤ (R.filled d k).length → skipBad R.table d.flashDest = none →
    Kept R d k (.halt { d with buf := R.filled d k })

theorem keep_kept (hs : d.buf.length < R.page) : Kept R d k (R.keep d k) := by
  have hcount : (if R.destsz - d.len > k.start.bufsz then (k.start.bufsz : Int)
      else R.destsz - d.len).toNat = min (R.destsz - d.len).toNat k.start.bufsz := by
    split <;> omega
  have htake : k.payload.take (min (R.destsz - d.len).toNat k.start.bufsz) =
      k.payload.take (R.destsz - d.len).toNat := by
    rw [← k.length_payload, List.take_eq_take_iff]
    omega
  unfold keep
  dsimp only
  by_cases hc : 0 < if R.destsz - d.len > k.start.bufsz then (k.start.bufsz : Int)
      else R.destsz - d.len
  · rw [if_pos hc, hcount, htake,
      show d.buf ++ k.payload.take (R.destsz - d.len).toNat = R.filled d k from rfl,
      readBack_of_room (length_filled hs)]
    split
    next hp =>
      cases hb : skipBad R.table d.flashDest with
      | none => exact .leaves hp hb
      | some dest =>
        dsimp only
        split
        next hv => exact .programs dest hp hb hv
        next hv => exact .differs dest hp hb (Bool.eq_false_iff.mpr hv)
    next hp => exact .waits (by omega)
  · -- nothing is left to be stored
    have hpos : 0 < k.start.bufsz := by cases k.start <;> decide
    have h0 : (R.destsz - d.len).toNat = 0 := by
      split at hc <;> omega
    rw [if_neg hc]
    have hf : R.filled d k = d.buf := by rw [filled, h0, List.take_zero, List.append_nil]
    have := Kept.waits (R := R) (d := d) (k := k) (by rw [hf]; exact hs)
    rwa [hf, h0, Nat.zero_min, Nat.add_zero] at this

theorem kept_fresh (hd : R.Ledger d) (hk : Fresh d k) :
    R.kept (d.received ++ [k]) = d.len + min (R.destsz - d.len).toNat k.start.bufsz := by
  have hl := hd.len
  rw [kept] at hl
  rw [kept, delivered_fresh hd hk, List.length_append, k.length_payload]
  omega

theorem filled_content (hd : R.Ledger d) (hk : Fresh d k) :
    (d.programmed.map Prod.snd).flatten ++ R.filled d k =
      (delivered (d.received ++ [k])).take
        (d.len + min (R.destsz - d.len).toNat k.start.bufsz) := by
  have hl := hd.len
  rw [kept] at hl
  rw [filled, ← List.append_assoc, hd.content, delivered_fresh hd hk]
  by_cases hn : (R.destsz - d.len).toNat = 0
  · rw [hn, List.take_zero, Nat.zero_min, Nat.add_zero, List.append_nil,
      List.take_append_of_le_length (by omega)]
  · -- there is room left, so all that was delivered before is kept
    have hall : d.len = (delivered d.received).length := by omega
    rw [hall, List.take_length, List.take_length_add_append, List.append_cancel_left_eq,
      ← k.length_payload, List.take_eq_take_iff]
    omega

theorem Ledger.fresh (hd : R.Ledger d) (hk : Fresh d k)
    (h : R.keep { d with received := d.received ++ [k] } k = .next d') :
    R.Ledger { d' with packetno := d'.packetno + 1, retrans := retrans } := by
  have hnum : d.packetno + 1 = UInt8.ofNat (1 + (accepted (d.received ++ [k])).length) := by
    rw [hd.number, accepted_fresh hd hk, List.length_append, List.length_singleton, ← Nat.add_assoc]
    simp
  have hc := filled_content hd hk
  have hl := kept_fresh hd hk
  have hlt := length_filled (k := k) hd.short
  have hkept := keep_kept (R := R) (d := { d with received := d.received ++ [k] }) (k := k) hd.short
  rw [h] at hkept
  cases hkept with
  | waits hp => exact ⟨hnum, hc, hl.symm, hd.full, hp⟩
  | programs dest hp hb hv =>
    refine ⟨hnum, ?_, hl.symm, ?_, ?_⟩
    · dsimp only
      rw [← hc, List.map_append, List.flatten_append, List.append_assoc, List.append_cancel_left_eq]
      exact (congrArg (· ++ _) (List.append_nil _)).trans (List.take_append_drop _ _)
    · intro p hmem
      rcases List.mem_append.mp hmem with hmem | hmem
      · exact hd.full p hmem
      · rw [List.mem_singleton.mp hmem, List.length_take, Nat.min_eq_left hp]
    · rw [List.length_drop]
      have := R.unit_lt
      change (R.filled d k).length - R.page < R.page
      omega

end Delivery

-- ---------------------------------------------------------------------------
-- Steps
-- ---------------------------------------------------------------------------

section Steps

variable {R} {s : State} {d : Store} {k : Packet}

inductive Taken (R : Receiver) (s : State) (k : Packet) : Outcome State (Int × State) State → Prop
  | rejected : ¬ Fresh s.store k → Taken R s k (.next { s with
      store := { s.store with received := s.store.received ++ [k] }, phase := .flush .reject })
  | repeated : ¬ Fresh s.store k → Taken R s k
      (.next (answer s { s.store with received := s.store.received ++ [k] }))
  | kept (d : Store) : Fresh s.store k →
    R.keep { s.store with received := s.store.received ++ [k] } k = .next d →
    Taken R s k (.next (answer s { d with
      packetno := d.packetno + 1, retrans := maxRetrans + 1 }))
  | ended (v : Int) (d : Store) : Fresh s.store k →
    R.keep { s.store with received := s.store.received ++ [k] } k = .ret (v, d) →
    Taken R s k (.ret (v, { s with store := d }))
  | halted (d : Store) : Fresh s.store k →
    R.keep { s.store with received := s.store.received ++ [k] } k = .halt d →
    Taken R s k (.halt { s with store := d })

theorem packet_taken : Taken R s k (R.packet s k) := by
  have hfresh : Fresh s.store k ↔ k.number = ~~~k.complement ∧
      check k.crc (k.body.drop 2) k.start.bufsz ∧ k.number = s.store.packetno := by
    simp [Fresh, Packet.intact, and_assoc]
  unfold packet
  dsimp only
  split
  next hp =>
    split
    next hn =>
      have hf : Fresh s.store k := hfresh.mpr ⟨hp.1, hp.2.2, hn⟩
      split
      next d h => exact .kept d hf h
      next v d h => exact .ended v d hf h
      next d h => exact .halted d hf h
    next hn => exact .repeated fun hf => hn (hfresh.mp hf).2.2
  next hp =>
    exact .rejected fun hf => hp ⟨(hfresh.mp hf).1, .inl (hfresh.mp hf).2.2, (hfresh.mp hf).2.1⟩

@[simp] theorem wait_store (retry : Nat) : (s.wait retry).store = s.store := by
  unfold State.wait
  split
  · rfl
  · split <;> rfl

@[simp] theorem answer_store : (answer s d).store = { d with retrans := d.retrans - 1 } := by
  unfold answer
  dsimp only
  split
  · rfl
  · rw [wait_store]

/-- What holds in every phase. Until the first packet the receiver asks for one, and how it
is checked is settled then. -/
structure Steady (R : Receiver) (s : State) : Prop where
  ledger : R.Ledger s.store
  asking : s.trychar ≠ 0 → s.store.received = []
  mode : ∀ k ∈ s.store.received, k.crc = s.crc

structure Sound (R : Receiver) (s : State) : Prop extends Steady R s where
  ends : ∀ v answer, s.phase = .flush (.ret v answer) → v = s.store.len ∨ v < 0 ∧ v ≠ -100
  inside : ∀ start got, s.phase = .packet start got → s.trychar = 0

theorem Steady.congr {t : State} (h : Steady R s) (hs : t.store = s.store)
    (ht : t.trychar = s.trychar) (hc : t.crc = s.crc) : Steady R t :=
  ⟨hs ▸ h.ledger, ht ▸ hs ▸ h.asking, hc ▸ hs ▸ h.mode⟩

theorem Steady.wait (h : Steady R s) (retry : Nat) : Sound R (s.wait retry) := by
  unfold State.wait
  split
  · exact ⟨h.congr rfl rfl rfl, nofun, nofun⟩
  · split
    next hc =>
      have hne : s.trychar ≠ 0 := by
        rw [hc]
        decide
      exact ⟨⟨h.ledger, fun _ => h.asking hne, h.mode⟩, nofun, nofun⟩
    next hc =>
      refine ⟨h.congr rfl rfl rfl, ?_, nofun⟩
      rintro v answer ⟨⟩
      exact .inr ⟨by decide, by decide⟩

theorem Steady.startRecv (h : Steady R s) (start : Start) : Sound R (s.startRecv start) := by
  refine ⟨⟨h.ledger, fun hne => absurd rfl hne, ?_⟩, nofun, fun _ _ _ => rfl⟩
  intro k hk
  have hz : s.trychar ≠ letterC := by
    intro hc
    have hempty := h.asking (by rw [hc]; decide)
    rw [State.startRecv, hempty] at hk
    exact absurd hk List.not_mem_nil
  rw [State.startRecv, if_neg hz]
  exact h.mode k hk

theorem Steady.answer (h : Steady R { s with store := { d with retrans := d.retrans - 1 } }) :
    Sound R (answer s d) := by
  unfold Receiver.answer
  dsimp only
  split
  · refine ⟨h.congr rfl rfl rfl, ?_, nofun⟩
    rintro v answer ⟨⟩
    exact .inr ⟨by decide, by decide⟩
  · apply Steady.wait
    exact h.congr rfl rfl rfl

/-- A run that goes on is sound; one that returns has its ledger in order, unless the page
it programmed last differs. -/
def Fine (R : Receiver) : Outcome State (Int × State) State → Prop
  | .next s => Sound R s
  | .ret (v, s) => v = -100 ∨ R.Ledger s.store ∧ (v = s.store.len ∨ v < 0 ∧ v ≠ -100)
  | .halt _ => True

theorem keep_received {d' : Store} (h : R.keep d k = .next d') (hs : d.buf.length < R.page) :
    d'.received = d.received := by
  have hkept := keep_kept (R := R) (k := k) hs
  rw [h] at hkept
  cases hkept <;> rfl

theorem keep_ret {d' : Store} {v : Int} (h : R.keep d k = .ret (v, d'))
    (hs : d.buf.length < R.page) : v = -100 := by
  have hkept := keep_kept (R := R) (k := k) hs
  rw [h] at hkept
  cases hkept
  rfl

theorem packet_fine (h : Steady R s) (ht : s.trychar = 0) (hk : k.crc = s.crc) :
    Fine R (R.packet s k) := by
  have hmode : ∀ x ∈ s.store.received ++ [k], x.crc = s.crc := by
    intro x hx
    rcases List.mem_append.mp hx with hx | hx
    · exact h.mode x hx
    · rw [List.mem_singleton.mp hx, hk]
  have ho : ∀ o, R.packet s k = o → Taken R s k o := fun o ho => ho ▸ packet_taken
  generalize R.packet s k = o at ho
  cases ho o rfl with
  | rejected hf => exact ⟨⟨h.ledger.other hf _, fun hne => absurd ht hne, hmode⟩, nofun, nofun⟩
  | repeated hf => exact Steady.answer ⟨h.ledger.other hf _, fun hne => absurd ht hne, hmode⟩
  | kept d hf hd =>
    have hr := keep_received hd h.ledger.short
    exact Steady.answer ⟨h.ledger.fresh hf hd, fun hne => absurd ht hne, by rw [hr]; exact hmode⟩
  | ended v d hf hd => exact .inl (keep_ret hd h.ledger.short)
  | halted d hf hd => trivial

theorem step_fine (h : Sound R s) (e : Option UInt8) : Fine R (R.step s e) := by
  have hsteady := h.toSteady
  unfold step
  split
  next retry _ => exact hsteady.wait (retry + 1)
  next retry c _ =>
    split
    · exact hsteady.startRecv .soh
    split
    · exact hsteady.startRecv .stx
    split
    · refine ⟨hsteady.congr rfl rfl rfl, ?_, nofun⟩
      rintro v answer ⟨⟩
      exact .inl rfl
    split
    · exact ⟨hsteady.congr rfl rfl rfl, nofun, nofun⟩
    · exact hsteady.wait (retry + 1)
  next retry _ =>
    split
    · refine ⟨hsteady.congr rfl rfl rfl, ?_, nofun⟩
      rintro v answer ⟨⟩
      exact .inr ⟨by decide, by decide⟩
    · exact hsteady.wait (retry + 1)
  next => exact ⟨hsteady.congr rfl rfl rfl, nofun, nofun⟩
  next start got b hp =>
    split
    next hlen => exact packet_fine hsteady (h.inside start got hp) rfl
    next => exact ⟨hsteady.congr rfl rfl rfl, nofun, fun _ _ _ => h.inside start got hp⟩
  next => exact h
  next =>
    apply Steady.wait (R := R)
    exact hsteady.congr rfl rfl rfl
  next v answer hp => exact .inr ⟨hsteady.ledger, h.ends v answer hp⟩

end Steps

theorem ledger_init : R.Ledger initStore where
  number := rfl
  content := rfl
  len := by simp [initStore, kept, delivered, accepted, acceptedFrom]
  full := by simp [initStore]
  short := by
    have := R.unit_lt
    simp only [initStore, List.length_nil]
    omega

theorem receive_fine (input : List (Option UInt8)) : Fine R (R.receive input) := by
  refine Scan.run_inv (Fine R) ?_ (fun s e h => step_fine h e) input
  exact Steady.wait ⟨R.ledger_init, fun _ => rfl, fun k hk => absurd hk List.not_mem_nil⟩ 0

theorem length_flatten_of_full {page : Nat} {ps : List (Nat × List UInt8)}
    (h : ∀ p ∈ ps, p.2.length = page) : (ps.map Prod.snd).flatten.length = ps.length * page := by
  induction ps with
  | nil => simp
  | cons p ps ih =>
    rw [List.map_cons, List.flatten_cons, List.length_append, h p List.mem_cons_self,
      ih fun q hq => h q (List.mem_cons_of_mem p hq), List.length_cons, Nat.succ_mul, Nat.add_comm]

theorem Ledger.length {R : Receiver} {d : Store} (h : R.Ledger d) :
    d.programmed.length * R.page + d.buf.length = R.kept d.received := by
  have hlen := congrArg List.length h.content
  rw [List.length_append, length_flatten_of_full h.full, List.length_take, h.len, kept] at hlen
  rw [hlen, kept]
  omega

/-- Whenever a run waits for input, and when it returns after a packet, pages and buffer are
the first `len` bytes delivered, which are all that fit, pages are full and the buffer holds less
than a page. -/
def InOrder (input : List (Option UInt8)) : Prop :=
  ∀ s, (R.receive input = .next s ∨ ∃ v, v ≠ -100 ∧ R.receive input = .ret (v, s)) →
    (s.store.programmed.map Prod.snd).flatten ++ s.store.buf =
      (delivered s.store.received).take s.store.len ∧
    s.store.len = R.kept s.store.received ∧
    (∀ p ∈ s.store.programmed, p.2.length = R.page) ∧
    s.store.buf.length < R.page

theorem inOrder (input : List (Option UInt8)) : R.InOrder input := by
  intro s hs
  have hl : R.Ledger s.store := by
    have hf := R.receive_fine input
    rcases hs with hs | ⟨v, hv, hs⟩
    · rw [hs] at hf
      exact hf.ledger
    · rw [hs] at hf
      exact (hf.resolve_left hv).1
  exact ⟨hl.content, hl.len, hl.full, hl.short⟩

end Receiver

end BismarckPreloader.Xmodem
