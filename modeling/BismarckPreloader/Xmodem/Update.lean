import BismarckPreloader.Xmodem.Sessions
import Mathlib.Data.List.Perm.Subperm

/-!
# The loader update over XMODEM

`cli_xmodem_2_nand` erases the first four blocks, records those that cannot be used in the
bad block table, and receives up to four blocks of data. Blocks are the 64 pages of
`BLOCK_PAGE_ADDR`. The function ends in a reset, so the table is clear when it starts.

The receiver programs the pages of good blocks from page 0 on (`Segment`), whatever the
number of blocks that were erased. It stays in them exactly as long as the pages it receives
fit into the good ones of the first four blocks.
-/

namespace BismarckPreloader.Xmodem

def goodPage (table : Table) (a : Nat) : Prop := ∀ h : a / 64 < 8, table ⟨a / 64, h⟩ = false

theorem skipBad_some {table : Table} {dest e : Nat} (h : skipBad table dest = some e) :
    dest ≤ e ∧ goodPage table e ∧ ∀ a, dest ≤ a → a < e → ¬ goodPage table a := by
  induction dest using skipBad.induct table with
  | case1 dest hd hbad ih =>
    rw [skipBad, dif_pos hd, if_pos hbad] at h
    obtain ⟨hle, hg, hskip⟩ := ih h
    refine ⟨by omega, hg, fun a ha hlt hga => ?_⟩
    rcases Nat.eq_or_lt_of_le ha with rfl | ha
    · exact Bool.noConfusion (hbad.symm.trans (hga hd))
    · exact hskip a ha hlt hga
  | case2 dest hd hgood =>
    rw [skipBad, dif_pos hd, if_neg hgood, Option.some.injEq] at h
    subst h
    exact ⟨Nat.le_refl _, fun _ => Bool.eq_false_iff.mpr hgood, fun a ha hlt => by omega⟩
  | case3 dest hd =>
    rw [skipBad, dif_neg hd] at h
    cases h

theorem skipBad_none {table : Table} {dest : Nat} (h : skipBad table dest = none) :
    ∀ a, dest ≤ a → a < 512 → ¬ goodPage table a := by
  induction dest using skipBad.induct table with
  | case1 dest hd hbad ih =>
    rw [skipBad, dif_pos hd, if_pos hbad] at h
    intro a ha hlt hga
    rcases Nat.eq_or_lt_of_le ha with rfl | ha
    · exact Bool.noConfusion (hbad.symm.trans (hga hd))
    · exact ih h a ha hlt hga
  | case2 dest hd hgood =>
    rw [skipBad, dif_pos hd, if_neg hgood] at h
    cases h
  | case3 dest hd =>
    intro a ha hlt
    omega

-- ---------------------------------------------------------------------------
-- Where pages go
-- ---------------------------------------------------------------------------

structure Segment (table : Table) (m : Nat) (ps : List (Nat × List UInt8)) : Prop where
  increasing : (ps.map Prod.fst).Pairwise (· < ·)
  mem_iff : ∀ a, a ∈ ps.map Prod.fst ↔ a < m ∧ goodPage table a

namespace Segment

variable {table : Table} {m e : Nat} {ps : List (Nat × List UInt8)}

theorem concat (h : Segment table m ps) (hs : skipBad table m = some e) (data : List UInt8) :
    Segment table (e + 1) (ps ++ [(e, data)]) := by
  obtain ⟨hle, hg, hskip⟩ := skipBad_some hs
  refine ⟨?_, fun a => ?_⟩
  · rw [List.map_append, List.pairwise_append]
    refine ⟨h.increasing, List.pairwise_singleton _ _, fun a ha b hb => ?_⟩
    have := ((h.mem_iff a).mp ha).1
    rw [List.mem_singleton.mp hb]
    dsimp only
    omega
  · rw [List.map_append, List.mem_append, h.mem_iff, List.map_singleton, List.mem_singleton]
    constructor
    · rintro (⟨hlt, hga⟩ | rfl)
      · exact ⟨by omega, hga⟩
      · exact ⟨Nat.lt_succ_self _, hg⟩
    · rintro ⟨hlt, hga⟩
      by_cases ha : a < m
      · exact .inl ⟨ha, hga⟩
      · by_contra hne
        simp only [not_or] at hne
        exact hskip a (by omega) (by omega) hga

theorem exhausted (h : Segment table m ps) (hs : skipBad table m = none) :
    Segment table (max m 512) ps := by
  refine ⟨h.increasing, fun a => ?_⟩
  rw [h.mem_iff]
  constructor
  · rintro ⟨hlt, hga⟩
    exact ⟨by omega, hga⟩
  · rintro ⟨hlt, hga⟩
    by_contra hne
    have hm : m ≤ a := by
      by_contra hm
      exact hne ⟨by omega, hga⟩
    exact skipBad_none hs a hm (by omega) hga

end Segment

def lastStore : Outcome State (Int × State) State → Store
  | .next s => s.store
  | .ret (_, s) => s.store
  | .halt s => s.store

namespace Receiver

variable {R : Receiver}

def pages (R : Receiver) (ks : List Packet) : Nat := R.kept ks / R.page

/-- The pages programmed are the first good ones, one for every page of data delivered; the
last of these is missing if the look for a good page left the table. -/
def Placed (R : Receiver) : Outcome State (Int × State) State → Prop
  | .next s => Segment R.table s.store.flashDest s.store.programmed
  | .ret (_, s) => (∃ m, Segment R.table m s.store.programmed) ∧
    s.store.programmed.length = R.pages s.store.received
  | .halt s => (∃ m, 512 ≤ m ∧ Segment R.table m s.store.programmed) ∧
    s.store.programmed.length + 1 = R.pages s.store.received

theorem Ledger.pages {d : Store} (h : R.Ledger d) : d.programmed.length = R.pages d.received := by
  have := R.unit_lt
  rw [Receiver.pages, ← h.length, Nat.add_comm, Nat.add_mul_div_right _ _ (by omega),
    Nat.div_eq_of_lt h.short, Nat.zero_add]

theorem Ledger.pages_fresh {d : Store} {k : Packet} (h : R.Ledger d) (hk : Fresh d k)
    (hp : R.page ≤ (R.filled d k).length) :
    d.programmed.length + 1 = R.pages (d.received ++ [k]) := by
  have hu := R.unit_lt
  have hlt := length_filled (k := k) h.short
  have hlen : d.programmed.length * R.page + (R.filled d k).length = R.kept (d.received ++ [k]) := by
    have hl := h.length
    rw [← h.len] at hl
    rw [kept_fresh h hk, filled, List.length_append, length_payload_take]
    omega
  rw [Receiver.pages, ← hlen]
  refine (Nat.div_eq_of_lt_le ?_ ?_).symm
  · rw [Nat.succ_mul]
    omega
  · rw [Nat.succ_mul, Nat.succ_mul]
    omega

theorem packet_placed {s : State} {k : Packet} (hl : R.Ledger s.store)
    (h : Segment R.table s.store.flashDest s.store.programmed) : R.Placed (R.packet s k) := by
  have hkept := keep_kept (R := R) (k := k)
    (d := { s.store with received := s.store.received ++ [k] }) hl.short
  have htaken := packet_taken (R := R) (s := s) (k := k)
  generalize R.packet s k = o at htaken
  cases htaken with
  | rejected hf => exact h
  | repeated hf =>
    rw [Placed, answer_store]
    exact h
  | kept d hf hd =>
    rw [hd] at hkept
    rw [Placed, answer_store]
    cases hkept with
    | waits => exact h
    | programs dest hp hb => exact h.concat hb _
  | ended v d hf hd =>
    rw [hd] at hkept
    cases hkept with
    | differs dest hp hb =>
      refine ⟨⟨dest + 1, h.concat hb _⟩, ?_⟩
      rw [← hl.pages_fresh hf hp]
      exact List.length_append
  | halted d hf hd =>
    rw [hd] at hkept
    cases hkept with
    | leaves hp hb =>
      exact ⟨⟨_, Nat.le_max_right _ _, h.exhausted hb⟩, hl.pages_fresh hf hp⟩

theorem packet_received {s : State} {k : Packet} (hs : s.store.buf.length < R.page) :
    (lastStore (R.packet s k)).received = s.store.received ++ [k] := by
  have hkept := keep_kept (R := R) (k := k)
    (d := { s.store with received := s.store.received ++ [k] }) hs
  have htaken := packet_taken (R := R) (s := s) (k := k)
  generalize R.packet s k = o at htaken
  cases htaken with
  | rejected hf => rfl
  | repeated hf => rw [lastStore, answer_store]
  | kept d hf hd =>
    rw [lastStore, answer_store]
    exact keep_received hd hs
  | ended v d hf hd =>
    rw [hd] at hkept
    cases hkept
    rfl
  | halted d hf hd =>
    rw [hd] at hkept
    cases hkept
    rfl

theorem Follows.received_next {start : Start} {n : Nat} {s : State} (h : R.Follows start n s)
    (hs : R.receive (zeroStream start n) = .next s) :
    (lastStore (R.receive (zeroStream start (n + 1)))).received = zeroPackets start (n + 1) := by
  have hrun := R.run_feed (k := zeroPacket start (1 + n)) h.waiting (h.crc start).symm
  rw [receive, zeroStream_succ, Scan.run_append hs, hrun, zeroPackets_succ, ← h.received]
  exact packet_received (s := { s.startRecv start with
    phase := .packet start (zeroPacket start (1 + n)).body.dropLast }) h.sound.ledger.short

theorem step_store (s : State) (e : Option UInt8) :
    (∃ k, R.step s e = R.packet s k) ∨ (∃ t, R.step s e = .next t ∧ t.store = s.store) ∨
      ∃ v t, R.step s e = .ret (v, t) ∧ t.store = s.store := by
  unfold step
  split
  next retry _ => exact .inr (.inl ⟨_, rfl, wait_store _⟩)
  next retry c _ =>
    split
    · exact .inr (.inl ⟨_, rfl, rfl⟩)
    split
    · exact .inr (.inl ⟨_, rfl, rfl⟩)
    split
    · exact .inr (.inl ⟨_, rfl, rfl⟩)
    split
    · exact .inr (.inl ⟨_, rfl, rfl⟩)
    · exact .inr (.inl ⟨_, rfl, wait_store _⟩)
  next retry _ =>
    split
    · exact .inr (.inl ⟨_, rfl, rfl⟩)
    · exact .inr (.inl ⟨_, rfl, wait_store _⟩)
  next => exact .inr (.inl ⟨_, rfl, rfl⟩)
  next start got b hp =>
    split
    next hlen => exact .inl ⟨_, rfl⟩
    next => exact .inr (.inl ⟨_, rfl, rfl⟩)
  next => exact .inr (.inl ⟨_, rfl, rfl⟩)
  next => exact .inr (.inl ⟨_, rfl, wait_store _⟩)
  next v answer hp => exact .inr (.inr ⟨_, _, rfl, rfl⟩)

theorem receive_placed (input : List (Option UInt8)) :
    R.Fine (R.receive input) ∧ R.Placed (R.receive input) := by
  refine Scan.run_inv (fun o => R.Fine o ∧ R.Placed o) ⟨R.receive_fine [], ?_⟩ ?_ input
  · exact ⟨List.Pairwise.nil, fun a => by simp [init, State.wait, initStore]⟩
  · rintro s e ⟨hs, hp⟩
    have hs : R.Sound s := hs
    have hp : Segment R.table s.store.flashDest s.store.programmed := hp
    refine ⟨step_fine hs e, ?_⟩
    rcases R.step_store s e with ⟨k, ho⟩ | ⟨t, ho, ht⟩ | ⟨v, t, ho, ht⟩
    · rw [ho]
      exact packet_placed hs.ledger hp
    · rw [ho, Placed, ht]
      exact hp
    · rw [ho, Placed, ht]
      exact ⟨⟨_, hp⟩, hs.ledger.pages⟩

end Receiver

-- ---------------------------------------------------------------------------
-- The update
-- ---------------------------------------------------------------------------

def maxEraseBlkIndex : Nat := 3

/-- A call of `cli_xmodem_2_nand`: the results of the erase commands, the words read from the
spare area of the first page of each block, and what the receiver meets. -/
structure Update where
  page : Nat
  pagesPerBlk : Nat
  blockErase : Nat → Int
  spareWord : Nat → UInt32
  verifies : List (Nat × List UInt8) → Bool
  input : List (Option UInt8)
  unit_lt : 1024 < page
  room : page + 1024 ≤ writeRoom

namespace Update

variable (u : Update)

def eraseBlock (acc : Nat × Table) (bid : Nat) : Nat × Table :=
  if u.blockErase bid ≠ 0 then
    (acc.1 + 1, fun i => if i.val = bid then true else acc.2 i)
  else if 0xFFFFFFFF ≠ u.spareWord bid then
    (acc.1 + 1, fun i => if i.val = bid then true else acc.2 i)
  else acc

/-- `erase_blocks`: the number of blocks that cannot be used and the table. -/
def eraseBlocks : Nat × Table :=
  (List.range (maxEraseBlkIndex + 1)).foldl u.eraseBlock (0, fun _ => false)

def receiver : Receiver where
  page := u.page
  destsz := u.page * u.pagesPerBlk * (maxEraseBlkIndex + 1)
  table := u.eraseBlocks.2
  verifies := u.verifies
  unit_lt := u.unit_lt
  room := u.room

/-- `cli_xmodem_2_nand`; `none` if no block could be erased. -/
def cliXmodem2Nand : Option (Outcome State (Int × State) State) :=
  if u.eraseBlocks.1 = maxEraseBlkIndex + 1 then none else some (u.receiver.receive u.input)

def Erased (b : Nat) : Prop :=
  b ≤ maxEraseBlkIndex ∧ u.blockErase b = 0 ∧ u.spareWord b = 0xFFFFFFFF

instance (b : Nat) : Decidable (u.Erased b) := by
  unfold Erased
  infer_instance

def good : Nat := (List.range (maxEraseBlkIndex + 1)).countP fun b => u.Erased b

def outcome : Outcome State (Int × State) State := u.receiver.receive u.input

def final : Store := lastStore u.outcome

def addresses : List Nat := u.final.programmed.map Prod.fst

/-- Pages are programmed in blocks that were erased, at increasing addresses, hence each at
most once, and the look for a good page stays inside the table. -/
def Safe : Prop :=
  u.cliXmodem2Nand = none ∨
    (∀ s, u.outcome ≠ .halt s) ∧ (∀ a ∈ u.addresses, u.Erased (a / 64)) ∧
      u.addresses.Pairwise (· < ·)

def pages : Nat := u.receiver.pages u.final.received

-- ---------------------------------------------------------------------------
-- The table
-- ---------------------------------------------------------------------------

theorem eraseBlock_eq (acc : Nat × Table) {bid : Nat} (hb : bid ≤ maxEraseBlkIndex) :
    u.eraseBlock acc bid = if u.Erased bid then acc
      else (acc.1 + 1, fun i => if i.val = bid then true else acc.2 i) := by
  by_cases h1 : u.blockErase bid = 0
  · by_cases h2 : u.spareWord bid = 0xFFFFFFFF
    · simp [eraseBlock, Erased, h1, h2, hb]
    · simp [eraseBlock, Erased, h1, h2, Ne.symm h2]
  · simp [eraseBlock, Erased, h1]

theorem erase_spec {n : Nat} (hn : n ≤ maxEraseBlkIndex + 1) :
    ((List.range n).foldl u.eraseBlock (0, fun _ => false)).1 =
      (List.range n).countP (fun b => ¬ u.Erased b) ∧
    ∀ i, ((List.range n).foldl u.eraseBlock (0, fun _ => false)).2 i = true ↔
      i.val < n ∧ ¬ u.Erased i.val := by
  induction n with
  | zero => simp
  | succ n ih =>
    obtain ⟨hcount, htable⟩ := ih (by omega)
    rw [List.range_succ, List.foldl_append, List.countP_append, List.foldl_cons, List.foldl_nil,
      u.eraseBlock_eq _ (by omega)]
    by_cases he : u.Erased n
    · rw [if_pos he]
      refine ⟨by simp [hcount, he], fun i => (htable i).trans ?_⟩
      constructor
      · rintro ⟨hi, hne⟩
        exact ⟨by omega, hne⟩
      · rintro ⟨hi, hne⟩
        refine ⟨?_, hne⟩
        have : i.val ≠ n := fun h => hne (h ▸ he)
        omega
    · rw [if_neg he]
      refine ⟨by simp [hcount, he], fun i => ?_⟩
      dsimp only
      by_cases hi : i.val = n
      · rw [if_pos hi, hi]
        exact iff_of_true rfl ⟨Nat.lt_succ_self n, he⟩
      · rw [if_neg hi, htable i]
        constructor
        · rintro ⟨h1, h2⟩
          exact ⟨by omega, h2⟩
        · rintro ⟨h1, h2⟩
          exact ⟨by omega, h2⟩

theorem cliXmodem2Nand_eq :
    u.cliXmodem2Nand = if u.good = 0 then none else some u.outcome := by
  have hcount := (u.erase_spec (Nat.le_refl _)).1
  have hsum := List.length_eq_countP_add_countP (fun b => decide (u.Erased b))
    (l := List.range (maxEraseBlkIndex + 1))
  rw [List.length_range] at hsum
  simp only [decide_eq_true_eq] at hsum
  have hiff : u.eraseBlocks.1 = maxEraseBlkIndex + 1 ↔ u.good = 0 := by
    rw [eraseBlocks, hcount, good]
    omega
  rw [cliXmodem2Nand]
  by_cases hg : u.good = 0
  · rw [if_pos (hiff.mpr hg), if_pos hg]
  · rw [if_neg (fun h => hg (hiff.mp h)), if_neg hg]
    rfl

/-- Below block 4 the good pages are those of the blocks that were erased; behind it the
table is empty. -/
theorem goodPage_iff (a : Nat) :
    goodPage u.receiver.table a ↔ (a < 256 → u.Erased (a / 64)) := by
  have htable := (u.erase_spec (Nat.le_refl _)).2
  constructor
  · intro hg ha
    by_contra hne
    have h8 : a / 64 < 8 := by omega
    have := (htable ⟨a / 64, h8⟩).mpr ⟨by dsimp only [maxEraseBlkIndex]; omega, hne⟩
    exact Bool.noConfusion (this.symm.trans (hg h8))
  · intro h h8
    refine Bool.eq_false_iff.mpr fun ht => ?_
    obtain ⟨hlt, hne⟩ := (htable ⟨a / 64, h8⟩).mp ht
    simp only [maxEraseBlkIndex] at hlt
    exact hne (h (by omega))

theorem countP_blocks (p : Nat → Bool) (n : Nat) :
    (List.range (64 * n)).countP (fun a => p (a / 64)) = 64 * (List.range n).countP p := by
  induction n with
  | zero => rfl
  | succ n ih =>
    have hblock : ((List.range 64).map (64 * n + ·)).countP (fun a => p (a / 64)) =
        64 * [n].countP p := by
      rw [List.countP_map]
      have : (List.range 64).countP ((fun a => p (a / 64)) ∘ (64 * n + ·)) =
          (List.range 64).countP (fun _ => p n) := by
        refine List.countP_congr fun a ha => ?_
        have := List.mem_range.mp ha
        rw [Function.comp_apply, show (64 * n + a) / 64 = n by omega]
      rw [this]
      cases hp : p n <;> simp [hp]
    rw [Nat.mul_succ, List.range_add, List.countP_append, ih, hblock, List.range_succ,
      List.countP_append, Nat.mul_add]

def erasedPages : List Nat := (List.range 256).filter fun a => u.Erased (a / 64)

theorem length_erasedPages : u.erasedPages.length = 64 * u.good := by
  rw [erasedPages, ← List.countP_eq_length_filter]
  exact countP_blocks (fun b => decide (u.Erased b)) 4

theorem mem_erasedPages {a : Nat} : a ∈ u.erasedPages ↔ a < 256 ∧ u.Erased (a / 64) := by
  simp [erasedPages]

-- ---------------------------------------------------------------------------
-- Inside the erased blocks
-- ---------------------------------------------------------------------------

/-- There is one page programmed for each page delivered, unless the look for a good page
left the table: then all good pages are used up and one is missing. -/
theorem placed : ∃ m, Segment u.receiver.table m u.final.programmed ∧
    ((∀ s, u.outcome ≠ .halt s) ∧ u.pages = u.addresses.length ∨
      512 ≤ m ∧ u.pages = u.addresses.length + 1 ∧ ∃ s, u.outcome = .halt s) := by
  obtain ⟨hfine, hplaced⟩ := u.receiver.receive_placed u.input
  rw [show u.receiver.receive u.input = u.outcome from rfl] at hfine hplaced
  rw [pages, addresses, List.length_map, final]
  cases ho : u.outcome with
  | next s =>
    rw [ho] at hfine hplaced
    have hl : u.receiver.Ledger s.store := hfine.ledger
    exact ⟨_, hplaced, .inl ⟨nofun, hl.pages.symm⟩⟩
  | ret r =>
    rw [ho] at hplaced
    obtain ⟨⟨m, hm⟩, hlen⟩ := hplaced
    exact ⟨m, hm, .inl ⟨nofun, hlen.symm⟩⟩
  | halt s =>
    rw [ho] at hplaced
    obtain ⟨⟨m, h512, hm⟩, hlen⟩ := hplaced
    exact ⟨m, hm, .inr ⟨h512, hlen.symm, s, rfl⟩⟩

theorem erasedPages_subset {m : Nat} (hm : Segment u.receiver.table m u.final.programmed)
    (h : 256 ≤ m) : u.erasedPages ⊆ u.addresses := by
  intro a ha
  obtain ⟨hlt, he⟩ := u.mem_erasedPages.mp ha
  exact (hm.mem_iff a).mpr ⟨by omega, (u.goodPage_iff a).mpr fun _ => he⟩

theorem nodup_erasedPages : u.erasedPages.Nodup := List.nodup_range.filter _

theorem safe_of_pages (h : u.pages ≤ 64 * u.good) : u.Safe := by
  rw [← u.length_erasedPages] at h
  obtain ⟨m, hm, ⟨hno, hpages⟩ | ⟨h512, hpages, -⟩⟩ := u.placed
  · refine .inr ⟨hno, fun a ha => ?_, hm.increasing⟩
    obtain ⟨hlt, hg⟩ := (hm.mem_iff a).mp ha
    refine (u.goodPage_iff a).mp hg ?_
    by_contra hge
    -- a page behind the erased blocks comes after all of theirs
    have hnotin : a ∉ u.erasedPages := fun hin => hge (u.mem_erasedPages.mp hin).1
    have hsub : a :: u.erasedPages ⊆ u.addresses :=
      List.cons_subset.mpr ⟨ha, u.erasedPages_subset hm (by omega)⟩
    have hle := (List.subperm_of_subset
      (List.nodup_cons.mpr ⟨hnotin, u.nodup_erasedPages⟩) hsub).length_le
    rw [List.length_cons] at hle
    omega
  · have hsub := u.erasedPages_subset hm (by omega)
    have hle := (List.subperm_of_subset u.nodup_erasedPages hsub).length_le
    omega

theorem pages_of_safe (h : u.Safe) (hg : u.good ≠ 0) : u.pages ≤ 64 * u.good := by
  rw [← u.length_erasedPages]
  rcases h with hnone | ⟨hno, herased, hinc⟩
  · rw [u.cliXmodem2Nand_eq, if_neg hg] at hnone
    cases hnone
  · have hsub : u.addresses ⊆ u.erasedPages := by
      intro a ha
      have he := herased a ha
      refine u.mem_erasedPages.mpr ⟨?_, he⟩
      have : a / 64 ≤ 3 := he.1
      omega
    have hle := (List.subperm_of_subset (hinc.imp Nat.ne_of_lt) hsub).length_le
    obtain ⟨m, hm, ⟨-, hpages⟩ | ⟨-, -, s, hs⟩⟩ := u.placed
    · omega
    · exact absurd hs (hno s)

/-- The update stays in the blocks it has erased exactly if the pages delivered fit into the
good ones, or nothing is programmed because none is good. -/
theorem safe_iff : u.Safe ↔ u.good = 0 ∨ u.pages ≤ 64 * u.good := by
  constructor
  · intro h
    by_cases hg : u.good = 0
    · exact .inl hg
    · exact .inr (u.pages_of_safe h hg)
  · rintro (hg | h)
    · exact .inl (by rw [cliXmodem2Nand_eq, if_pos hg])
    · exact u.safe_of_pages h

def oneGoodBlock : Update where
  page := 2112
  pagesPerBlk := 64
  blockErase := fun b => if b = 0 then 0 else -1
  spareWord := fun _ => 0xFFFFFFFF
  verifies := fun _ => true
  input := zeroStream .stx 135
  unit_lt := smallPages.unit_lt
  room := smallPages.room

theorem oneGoodBlock_not_safe : ¬ oneGoodBlock.Safe := by
  have hgood : oneGoodBlock.good = 1 := by decide
  have ht : oneGoodBlock.receiver.table 0 = false := by
    have := ((oneGoodBlock.erase_spec (Nat.le_refl _)).2 0).not.mpr fun h => h.2 (by decide)
    exact Bool.eq_false_iff.mpr this
  intro hsafe
  have hpages := oneGoodBlock.pages_of_safe hsafe (by omega)
  obtain ⟨s, hs, hf⟩ := oneGoodBlock.receiver.run_zeros .stx (fun _ => rfl) ht 134 (by decide)
  have hrec : oneGoodBlock.final.received = zeroPackets .stx 135 := hf.received_next hs
  rw [hgood, pages, Receiver.pages, Receiver.kept, hrec, length_delivered_zeroPackets] at hpages
  revert hpages
  decide

end Update

end BismarckPreloader.Xmodem
