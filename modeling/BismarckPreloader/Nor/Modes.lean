import BismarckPreloader.Nor.Erase
import BismarckPreloader.Nor.Prog
import BismarckPreloader.Nor.Read

/-!
# The address mode between and during requests

Reading, programming and erasing share one loop: pick a piece, bring its place in reach,
send the command, move on by what it returned. Here the loop is taken with everything that
can go wrong in it: no erase command may suit the place, and any command may fail. Where
nothing fails it is the loop of each of the three (`callStep_read` and the next). However a
request ends, the chips are left as they were before it, and no command goes beyond 16 MB
of a chip that was not switched for it in the same request.
-/

namespace BismarckPreloader.Nor

open Loop

-- ---------------------------------------------------------------------------
-- Requests with outcomes
-- ---------------------------------------------------------------------------

/-- What is asked for. The bytes to program may change as the chips are switched, when the
source is in the flash. -/
inductive Op where
  | read
  | prog (src : List Command → Nat → UInt8)
  | erase (isStrictLen : Bool)

/-- A request, and what becomes of each command: `some k` is the error `-(k + 1)`. -/
structure Call where
  op : Op
  offset : Nat
  len : Nat
  outcome : List Command → Option Nat
  offset_lt : offset < 2 ^ 32
  len_lt : len < 2 ^ 32

def piece (ni : Info) (op : Op) (left : Nat) (p : Pos) (sent : List Command) :
    Except Int (Nat × Command) :=
  match op with
  | .read =>
    let opLen := min (min left readUnit) (ni.size - p.nextOffset)
    .ok (opLen, .read p.cs p.nextOffset opLen)
  | .prog src =>
    let opLen := min left (progUnit - p.nextOffset % progUnit)
    .ok (opLen, .prog p.cs p.nextOffset ((List.range opLen).map fun i => src sent (p.doneB + i)))
  | .erase isStrictLen =>
    match eraseCmdSel ni p.nextOffset left with
    | .error e => .error e
    | .ok c =>
      if c.sz > left && isStrictLen then .error lenNalign
      else .ok (c.sz, .erase p.cs p.nextOffset c.sz)

def advance (ni : Info) (p : Pos) (res : Nat) : Pos :=
  { posAdvance ni p res with doneB := u32 (p.doneB + res) }

/-- A pass of the loop. Every return goes to `t4_exception` or falls into it. -/
def callStep (ni : Info) (call : Call) (s : Transfer) : Outcome Transfer Transfer Empty :=
  if s.pos.doneB < call.len then
    match piece ni call.op (call.len - s.pos.doneB) s.pos s.sent with
    | .error e => .ret { s with res := e }
    | .ok (opLen, cmd) =>
      let e := addrRangeEnable ni s.pos.cs s.pos.nextOffset s.ua s.sent
      match call.outcome (cmd :: e.2) with
      | some k => .ret ⟨s.pos, e.1, cmd :: e.2, -(k + 1)⟩
      | none =>
        if s32 opLen < 0 then .ret ⟨s.pos, e.1, cmd :: e.2, s32 opLen⟩
        else .next ⟨advance ni s.pos opLen, e.1, cmd :: e.2, s32 opLen⟩
  else .ret s

def callStart (ni : Info) (call : Call) : Transfer :=
  ⟨⟨call.offset / ni.size, call.offset % ni.size, 0⟩, ⟨0, 0⟩, [], 0⟩

def Skips (ni : Info) (call : Call) : Prop :=
  overflows ni call.offset call.len = true ∨
    (match call.op with
      | .read => u32 (call.offset + call.len) ≤ megabyte16
      | _ => False)

def CallEnds (ni : Info) (call : Call) (sent : List Command) : Prop :=
  (Skips ni call ∧ sent = []) ∨
    (¬ Skips ni call ∧ ∃ s, Leads (callStep ni call) (callStart ni call) (.ret s) ∧
      sent = addrRangeRestore ni s.sent)

def CallSends (ni : Info) (call : Call) (sent : List Command) : Prop :=
  CallEnds ni call sent ∨
    (¬ Skips ni call ∧ ∃ s, (Leads (callStep ni call) (callStart ni call) (.next s) ∨
      Leads (callStep ni call) (callStart ni call) (.ret s)) ∧ sent = s.sent)

inductive Ran (ni : Info) : List Call → List Command → Prop
  | start : Ran ni [] []
  | call : Ran ni calls sent → CallEnds ni c own → Ran ni (calls ++ [c]) (own ++ sent)

-- ---------------------------------------------------------------------------
-- Chips at rest
-- ---------------------------------------------------------------------------

def fourByte : List Command → Nat → Bool
  | [], _ => false
  | .en4b cs :: t, c => if c = cs then true else fourByte t c
  | .ex4b cs :: t, c => if c = cs then false else fourByte t c
  | _ :: t, c => fourByte t c

def AtRest (ni : Info) (sent : List Command) : Prop :=
  ∀ c < ni.numChips, fourByte sent c = false ∧ bank sent c = 0

def addressed : Command → Option (Nat × Nat)
  | .read cs off _ => some (cs, off)
  | .prog cs off _ => some (cs, off)
  | .erase cs off _ => some (cs, off)
  | _ => none

def SwitchedFor (ni : Info) (sent : List Command) (cs off : Nat) : Prop :=
  match ni.addrMode with
  | .mode4b => fourByte sent cs = true
  | .ear4b => bank sent cs = off / megabyte16
  | _ => False

def AllSwitched (ni : Info) (sent : List Command) : Prop :=
  ∀ cmd t, cmd :: t <:+ sent → ∀ cs off, addressed cmd = some (cs, off) → megabyte16 ≤ off →
    SwitchedFor ni t cs off

theorem wide_eq (h : ni.mmio4bEn = false) (sent : List Command) (c : Nat) :
    wide ni sent c = fourByte sent c := by
  induction sent with
  | nil => exact h
  | cons cmd t ih => cases cmd <;> simp [wide, fourByte, ih]

theorem switchedFor_of_selected (hd : ni.dyn4bAddrSwitch = true) (h : Selected ni sent cs off) :
    SwitchedFor ni sent cs off := by
  unfold Selected at h
  unfold SwitchedFor
  cases hm : ni.addrMode with
  | addr3b => simp [Info.dyn4bAddrSwitch, hm] at hd
  | cmd4b => simp [Info.dyn4bAddrSwitch, hm] at hd
  | mode4b =>
    have hmmio : ni.mmio4bEn = false := by simpa [Info.dyn4bAddrSwitch, hm] using hd
    rw [hm] at h
    exact (wide_eq hmmio sent cs).symm.trans h
  | ear4b =>
    rw [hm] at h
    exact h

theorem AllSwitched.cons (h : AllSwitched ni sent)
    (hc : ∀ cs off, addressed cmd = some (cs, off) → megabyte16 ≤ off →
      SwitchedFor ni sent cs off) : AllSwitched ni (cmd :: sent) := by
  intro cmd' t hsuf
  rcases List.suffix_cons_iff.mp hsuf with heq | hsuf
  · cases heq
    exact hc
  · exact h cmd' t hsuf

theorem allSwitched_nil : AllSwitched ni [] := by
  intro cmd t hsuf
  cases List.suffix_nil.mp hsuf

theorem AllSwitched.enable (h : AllSwitched ni sent) (cs off : Nat) (ua : UsableAddr) :
    AllSwitched ni (addrRangeEnable ni cs off ua sent).2 :=
  addrRangeEnable_ind (AllSwitched ni) h (fun _ => h.cons nofun) fun _ => h.cons nofun

theorem AllSwitched.restore (h : AllSwitched ni sent) :
    AllSwitched ni (addrRangeRestore ni sent) :=
  addrRangeRestore_ind (AllSwitched ni) h (fun _ _ _ _ ht => ht.cons nofun)
    fun _ _ _ _ ht => ht.cons nofun

-- ---------------------------------------------------------------------------
-- One pass
-- ---------------------------------------------------------------------------

def OfMode (ni : Info) : Command → Prop
  | .en4b _ => ni.addrMode = .mode4b
  | .ex4b _ => ni.addrMode = .mode4b
  | .wrear _ _ => ni.addrMode ≠ .mode4b
  | _ => True

def AllOfMode (ni : Info) (sent : List Command) : Prop := ∀ cmd ∈ sent, OfMode ni cmd

theorem AllOfMode.enable (h : AllOfMode ni sent) (cs off : Nat) (ua : UsableAddr) :
    AllOfMode ni (addrRangeEnable ni cs off ua sent).2 :=
  addrRangeEnable_ind (AllOfMode ni) h (fun hm => List.forall_mem_cons.mpr ⟨hm, h⟩)
    fun hm => List.forall_mem_cons.mpr ⟨hm, h⟩

theorem AllOfMode.restore (h : AllOfMode ni sent) : AllOfMode ni (addrRangeRestore ni sent) :=
  addrRangeRestore_ind (AllOfMode ni) h
    (fun hm _ _ _ ht => List.forall_mem_cons.mpr ⟨hm, ht⟩)
    fun hm _ _ _ ht => List.forall_mem_cons.mpr ⟨hm, ht⟩

theorem piece_erase (h : piece ni (.erase isStrictLen) left p sent = .ok (opLen, cmd)) :
    ∃ c : EraseCmd, opLen = c.sz ∧ cmd = .erase p.cs p.nextOffset c.sz ∧
      (isStrictLen = true → c.sz ≤ left) := by
  unfold piece at h
  dsimp only at h
  split at h
  · cases h
  · rename_i c _
    split at h
    · cases h
    · rename_i hstrict
      cases h
      refine ⟨c, rfl, rfl, ?_⟩
      rintro rfl
      simpa using hstrict

theorem piece_addressed (h : piece ni op left p sent = .ok (opLen, cmd)) :
    addressed cmd = some (p.cs, p.nextOffset) ∧ OfMode ni cmd := by
  cases op with
  | read =>
    cases h
    exact ⟨rfl, trivial⟩
  | prog src =>
    cases h
    exact ⟨rfl, trivial⟩
  | erase isStrictLen =>
    obtain ⟨c, rfl, rfl, -⟩ := piece_erase h
    exact ⟨rfl, trivial⟩

theorem advance_place {p : Pos} (hin : p.nextOffset < ni.size) (n : Nat) :
    (advance ni p n).nextOffset < ni.size ∧
      ∃ k ≤ 2 ^ 31, (advance ni p n).cs * ni.size + (advance ni p n).nextOffset =
        p.cs * ni.size + p.nextOffset + k := by
  have hle := ni.size_le
  unfold advance posAdvance
  split
  · refine ⟨ni.size_pos, ni.size - p.nextOffset, by omega, ?_⟩
    dsimp only
    rw [Nat.succ_mul]
    omega
  · refine ⟨?_, n, ?_, ?_⟩
    · dsimp only
      omega
    · omega
    · dsimp only
      omega

theorem ready_cons (hc : addressed cmd = some a) (h : Ready ni ua sent g) :
    Ready ni ua (cmd :: sent) g := by
  cases cmd with
  | read cs off len => exact h
  | prog cs off data => exact h
  | erase cs off len => exact h
  | en4b cs => cases hc
  | ex4b cs => cases hc
  | wrear cs b => cases hc

structure Going (ni : Info) (s : Transfer) : Prop where
  inside : s.pos.nextOffset < ni.size
  ready : Ready ni s.ua s.sent (s.pos.cs * ni.size + s.pos.nextOffset)
  switched : AllSwitched ni s.sent
  ofMode : AllOfMode ni s.sent

theorem going_start (ni : Info) (call : Call) : Going ni (callStart ni call) where
  inside := Nat.mod_lt _ ni.size_pos
  ready := ready_start ni _
  switched := allSwitched_nil
  ofMode := fun _ h => nomatch h

section

variable {ni : Info} {s : Transfer}

theorem Going.enable (h : Going ni s) :
    let e := addrRangeEnable ni s.pos.cs s.pos.nextOffset s.ua s.sent
    Selected ni e.2 s.pos.cs s.pos.nextOffset ∧
      ∀ n ≤ 2 ^ 31, Ready ni e.1 e.2 (s.pos.cs * ni.size + s.pos.nextOffset + n) := by
  have hdiv : (s.pos.cs * ni.size + s.pos.nextOffset) / ni.size = s.pos.cs := by
    rw [Nat.mul_comm, Nat.mul_add_div ni.size_pos, Nat.div_eq_of_lt h.inside, Nat.add_zero]
  have hmod : (s.pos.cs * ni.size + s.pos.nextOffset) % ni.size = s.pos.nextOffset := by
    rw [Nat.mul_comm, Nat.mul_add_mod, Nat.mod_eq_of_lt h.inside]
  have hspec := addrRangeEnable_spec h.ready
  rwa [hdiv, hmod] at hspec

theorem Going.sent (h : Going ni s) (hd : ni.dyn4bAddrSwitch = true)
    (hc : addressed cmd = some (s.pos.cs, s.pos.nextOffset)) (hm : OfMode ni cmd) :
    let e := addrRangeEnable ni s.pos.cs s.pos.nextOffset s.ua s.sent
    AllSwitched ni (cmd :: e.2) ∧ AllOfMode ni (cmd :: e.2) := by
  refine ⟨(h.switched.enable _ _ _).cons fun cs off hco _ => ?_,
    List.forall_mem_cons.mpr ⟨hm, h.ofMode.enable _ _ _⟩⟩
  rw [hc] at hco
  cases hco
  exact switchedFor_of_selected hd h.enable.1

theorem callStep_next (hs : callStep ni call s = .next s') :
    ∃ opLen cmd, s.pos.doneB < call.len ∧
      piece ni call.op (call.len - s.pos.doneB) s.pos s.sent = .ok (opLen, cmd) ∧
      0 ≤ s32 opLen ∧
      let e := addrRangeEnable ni s.pos.cs s.pos.nextOffset s.ua s.sent
      s' = ⟨advance ni s.pos opLen, e.1, cmd :: e.2, s32 opLen⟩ := by
  unfold callStep at hs
  split at hs
  · rename_i hdone
    split at hs
    · cases hs
    · rename_i opLen cmd hp
      dsimp only at hs
      split at hs
      · cases hs
      · split at hs
        · cases hs
        · rename_i hneg
          cases hs
          exact ⟨opLen, cmd, hdone, hp, Int.not_lt.mp hneg, rfl⟩
  · cases hs

theorem callStep_ret (hs : callStep ni call s = .ret s') :
    s'.sent = s.sent ∨ ∃ opLen cmd,
      piece ni call.op (call.len - s.pos.doneB) s.pos s.sent = .ok (opLen, cmd) ∧
      s'.sent = cmd :: (addrRangeEnable ni s.pos.cs s.pos.nextOffset s.ua s.sent).2 := by
  unfold callStep at hs
  split at hs
  · split at hs
    · cases hs
      exact .inl rfl
    · rename_i opLen cmd hp
      dsimp only at hs
      split at hs
      · cases hs
        exact .inr ⟨opLen, cmd, hp, rfl⟩
      · split at hs
        · cases hs
          exact .inr ⟨opLen, cmd, hp, rfl⟩
        · cases hs
  · cases hs
    exact .inl rfl

theorem Going.next (h : Going ni s) (hd : ni.dyn4bAddrSwitch = true)
    (hs : callStep ni call s = .next s') : Going ni s' := by
  obtain ⟨opLen, cmd, -, hp, -, rfl⟩ := callStep_next hs
  obtain ⟨hc, hm⟩ := piece_addressed hp
  obtain ⟨hsw, hom⟩ := h.sent hd hc hm
  obtain ⟨hin, k, hk, hplace⟩ := advance_place h.inside opLen
  refine ⟨hin, ?_, hsw, hom⟩
  dsimp only
  rw [hplace]
  exact ready_cons hc (h.enable.2 k hk)

theorem Going.ret (h : Going ni s) (hd : ni.dyn4bAddrSwitch = true)
    (hs : callStep ni call s = .ret s') : AllSwitched ni s'.sent ∧ AllOfMode ni s'.sent := by
  rcases callStep_ret hs with heq | ⟨opLen, cmd, hp, heq⟩
  · rw [heq]
    exact ⟨h.switched, h.ofMode⟩
  · obtain ⟨hc, hm⟩ := piece_addressed hp
    rw [heq]
    exact h.sent hd hc hm

end

theorem leads_next (hd : ni.dyn4bAddrSwitch = true)
    (h : Leads (callStep ni call) (callStart ni call) (.next s)) : Going ni s :=
  h.inv (Going ni) (going_start ni call) fun _ _ hg hs => hg.next hd hs

theorem leads_ret (hd : ni.dyn4bAddrSwitch = true)
    (h : Leads (callStep ni call) (callStart ni call) (.ret s)) :
    AllSwitched ni s.sent ∧ AllOfMode ni s.sent := by
  obtain ⟨s', hs', hret⟩ := h.last rfl
  exact (leads_next hd hs').ret hd hret

theorem callSends_switched (hd : ni.dyn4bAddrSwitch = true) (h : CallSends ni call sent) :
    AllSwitched ni sent := by
  rcases h with (⟨-, rfl⟩ | ⟨-, s, hs, rfl⟩) | ⟨-, s, hs | hs, rfl⟩
  · exact allSwitched_nil
  · exact (leads_ret hd hs).1.restore
  · exact (leads_next hd hs).switched
  · exact (leads_ret hd hs).1

-- ---------------------------------------------------------------------------
-- All requests
-- ---------------------------------------------------------------------------

theorem bank_append_of_mode4b (hm : ni.addrMode = .mode4b) (h : AllOfMode ni own)
    (sent : List Command) (c : Nat) : bank (own ++ sent) c = bank sent c := by
  induction own with
  | nil => rfl
  | cons cmd own ih =>
    obtain ⟨hcmd, hown⟩ := List.forall_mem_cons.mp h
    cases cmd with
    | wrear cs b => exact absurd hm hcmd
    | _ => exact ih hown

theorem fourByte_append_of_ear4b (hm : ni.addrMode ≠ .mode4b) (h : AllOfMode ni own)
    (sent : List Command) (c : Nat) : fourByte (own ++ sent) c = fourByte sent c := by
  induction own with
  | nil => rfl
  | cons cmd own ih =>
    obtain ⟨hcmd, hown⟩ := List.forall_mem_cons.mp h
    cases cmd with
    | en4b cs => exact absurd hcmd hm
    | ex4b cs => exact absurd hcmd hm
    | _ => exact ih hown

def restoreCmd (ni : Info) (i : Nat) : Command :=
  if ni.addrMode = .mode4b then .ex4b i else .wrear i 0

theorem addrRangeRestore_eq (hd : ni.dyn4bAddrSwitch = true) (sent : List Command) :
    addrRangeRestore ni sent =
      (List.range ni.numChips).foldl (fun sent i => restoreCmd ni i :: sent) sent := by
  unfold addrRangeRestore restoreCmd
  congr 1
  funext sent i
  rw [if_pos hd]
  split <;> rfl

theorem foldl_restore (ni : Info) (chips : List Nat) (own sent : List Command) :
    chips.foldl (fun sent i => restoreCmd ni i :: sent) own ++ sent =
      chips.foldl (fun sent i => restoreCmd ni i :: sent) (own ++ sent) := by
  induction chips generalizing own with
  | nil => rfl
  | cons i chips ih =>
    rw [List.foldl_cons, List.foldl_cons, ih]
    rfl

theorem fourByte_restore (hm : ni.addrMode = .mode4b) (chips : List Nat) (sent : List Command)
    (hc : c ∈ chips ∨ fourByte sent c = false) :
    fourByte (chips.foldl (fun sent i => restoreCmd ni i :: sent) sent) c = false := by
  induction chips generalizing sent with
  | nil => exact hc.resolve_left List.not_mem_nil
  | cons i chips ih =>
    rw [List.foldl_cons]
    apply ih
    have hcmd : restoreCmd ni i = .ex4b i := if_pos hm
    rw [hcmd, fourByte, List.mem_cons] at *
    by_cases hi : c = i
    · simp [hi]
    · simpa [hi] using hc

theorem bank_restore (hm : ni.addrMode ≠ .mode4b) (chips : List Nat) (sent : List Command)
    (hc : c ∈ chips ∨ bank sent c = 0) :
    bank (chips.foldl (fun sent i => restoreCmd ni i :: sent) sent) c = 0 := by
  induction chips generalizing sent with
  | nil => exact hc.resolve_left List.not_mem_nil
  | cons i chips ih =>
    rw [List.foldl_cons]
    apply ih
    have hcmd : restoreCmd ni i = .wrear i 0 := if_neg hm
    rw [hcmd, bank, List.mem_cons] at *
    by_cases hi : c = i
    · simp [hi]
    · simpa [hi] using hc

theorem AtRest.after (hd : ni.dyn4bAddrSwitch = true) (h : AtRest ni sent)
    (hc : CallEnds ni call own) : AtRest ni (own ++ sent) := by
  rcases hc with ⟨-, rfl⟩ | ⟨-, s, hs, rfl⟩
  · exact h
  · intro c hcn
    obtain ⟨hfour, hbank⟩ := h c hcn
    have hom := (leads_ret hd hs).2
    have hmem : c ∈ List.range ni.numChips := List.mem_range.mpr hcn
    by_cases hm : ni.addrMode = .mode4b
    · refine ⟨?_, (bank_append_of_mode4b hm hom.restore sent c).trans hbank⟩
      rw [addrRangeRestore_eq hd, foldl_restore]
      exact fourByte_restore hm _ _ (.inl hmem)
    · refine ⟨(fourByte_append_of_ear4b hm hom.restore sent c).trans hfour, ?_⟩
      rw [addrRangeRestore_eq hd, foldl_restore]
      exact bank_restore hm _ _ (.inl hmem)

theorem Ran.atRest (hd : ni.dyn4bAddrSwitch = true) (h : Ran ni calls sent) : AtRest ni sent := by
  induction h with
  | start => exact fun _ _ => ⟨rfl, rfl⟩
  | call _ hc ih => exact ih.after hd hc

-- ---------------------------------------------------------------------------
-- Requests end
-- ---------------------------------------------------------------------------

/-- The counter of bytes done does not wrap: only an erase that may go beyond its end counts
more than it was asked for. -/
def Call.Counts (call : Call) : Prop :=
  match call.op with
  | .erase false => call.len ≤ 2 ^ 31
  | _ => True

theorem piece_len {call : Call} (hc : call.Counts) (hdone : p.doneB < call.len)
    (hin : p.nextOffset < ni.size)
    (h : piece ni call.op (call.len - p.doneB) p sent = .ok (opLen, cmd)) (hs : 0 ≤ s32 opLen) :
    0 < opLen ∧ p.doneB + opLen < 2 ^ 32 := by
  have hlen := call.len_lt
  unfold Call.Counts at hc
  cases hop : call.op with
  | read =>
    rw [hop] at h
    cases h
    have hunit : 0 < readUnit := by decide
    omega
  | prog src =>
    rw [hop] at h
    cases h
    have hmod := Nat.mod_lt p.nextOffset (show 0 < progUnit by decide)
    omega
  | erase isStrictLen =>
    rw [hop] at h hc
    obtain ⟨c, rfl, -, hle⟩ := piece_erase h
    refine ⟨c.sz_pos, ?_⟩
    cases isStrictLen with
    | true =>
      have hle := hle rfl
      omega
    | false =>
      have hhalf : ¬ 2 ^ 31 ≤ c.sz := fun hge =>
        absurd ((s32_sz_neg_iff c).mpr hge) (Int.not_lt.mpr hs)
      dsimp only at hc
      omega

theorem callStep_progress {call : Call} (hc : call.Counts) (hin : s.pos.nextOffset < ni.size)
    (hs : callStep ni call s = .next s') :
    s'.pos.nextOffset < ni.size ∧ s.pos.doneB < s'.pos.doneB ∧ s.pos.doneB < call.len := by
  obtain ⟨opLen, cmd, hdone, hp, hneg, rfl⟩ := callStep_next hs
  obtain ⟨hpos, hlt⟩ := piece_len hc hdone hin hp hneg
  have hcount : (advance ni s.pos opLen).doneB = s.pos.doneB + opLen := Nat.mod_eq_of_lt hlt
  exact ⟨(advance_place hin opLen).1, by dsimp only; omega, hdone⟩

theorem leads_ret_of_counts {call : Call} (hc : call.Counts) (s : Transfer)
    (hin : s.pos.nextOffset < ni.size) :
    ∃ s', Leads (callStep ni call) s (.ret s') := by
  cases hs : callStep ni call s with
  | next s' =>
    obtain ⟨hin', hmore, hdone⟩ := callStep_progress hc hin hs
    obtain ⟨r, hr⟩ := leads_ret_of_counts hc s' hin'
    exact ⟨r, .head hs hr⟩
  | ret s' => exact ⟨s', .one hs⟩
  | halt e => exact e.elim
termination_by call.len - s.pos.doneB

/-- Requests end, so that there is a state after each of them. -/
theorem exists_callEnds (ni : Info) {call : Call} (hc : call.Counts) : ∃ sent, CallEnds ni call sent := by
  by_cases hskip : Skips ni call
  · exact ⟨[], .inl ⟨hskip, rfl⟩⟩
  · obtain ⟨s, hs⟩ := leads_ret_of_counts hc (callStart ni call) (Nat.mod_lt _ ni.size_pos)
    exact ⟨_, .inr ⟨hskip, s, hs, rfl⟩⟩

-- ---------------------------------------------------------------------------
-- Where every command succeeds
-- ---------------------------------------------------------------------------

theorem advance_eq (h : p.doneB + n < 2 ^ 32) : advance ni p n = posAdvance ni p n := by
  unfold advance posAdvance u32
  rw [Nat.mod_eq_of_lt h]
  split <;> rfl

theorem s32_of_lt (h : n < 2 ^ 31) : s32 n = n := by
  have hmod : n % 2 ^ 32 = n := Nat.mod_eq_of_lt (by omega)
  rw [s32, hmod, if_pos h]

theorem callStep_ok {call : Call} (hdone : s.pos.doneB < call.len)
    (hok : ∀ sent, call.outcome sent = none)
    (hp : piece ni call.op (call.len - s.pos.doneB) s.pos s.sent = .ok (opLen, cmd)) :
    callStep ni call s =
      (let e := addrRangeEnable ni s.pos.cs s.pos.nextOffset s.ua s.sent
       if s32 opLen < 0 then .ret ⟨s.pos, e.1, cmd :: e.2, s32 opLen⟩
       else .next ⟨advance ni s.pos opLen, e.1, cmd :: e.2, s32 opLen⟩) := by
  rw [callStep, if_pos hdone, hp]
  dsimp only
  rw [hok]

theorem callStep_prog {call : Call} (hop : call.op = .prog (sourceByte ni m source))
    (hok : ∀ sent, call.outcome sent = none) (s : Transfer) :
    callStep ni call s = progStep ni m source call.len s := by
  have hlen := call.len_lt
  by_cases hdone : s.pos.doneB < call.len
  · have hunit : progUnit = 256 := rfl
    generalize hn : min (call.len - s.pos.doneB) (progUnit - s.pos.nextOffset % progUnit) = n
    have hp : piece ni call.op (call.len - s.pos.doneB) s.pos s.sent =
        .ok (n, .prog s.pos.cs s.pos.nextOffset ((List.range n).map fun i =>
          sourceByte ni m source s.sent (s.pos.doneB + i))) := by
      rw [hop, piece, hn]
    rw [callStep_ok hdone hok hp, s32_of_lt (by omega), advance_eq (by omega),
      if_neg (by omega), progStep, if_pos hdone, hn]
    rfl
  · rw [callStep, progStep, if_neg hdone, if_neg hdone]

theorem callStep_erase {call : Call} (hc : call.Counts) (hop : call.op = .erase isStrictLen)
    (hok : ∀ sent, call.outcome sent = none) (hin : s.pos.nextOffset < ni.size) :
    callStep ni call s = eraseStep ni isStrictLen call.len s := by
  by_cases hdone : s.pos.doneB < call.len
  · rw [eraseStep, if_pos hdone]
    cases hsel : eraseCmdSel ni s.pos.nextOffset (call.len - s.pos.doneB) with
    | error e => simp [callStep, hdone, piece, hop, hsel]
    | ok c =>
      dsimp only
      split
      · rename_i hlong
        rw [callStep, if_pos hdone, hop, piece, hsel]
        dsimp only
        rw [if_pos hlong]
      · rename_i hlong
        have hp : piece ni call.op (call.len - s.pos.doneB) s.pos s.sent =
            .ok (c.sz, .erase s.pos.cs s.pos.nextOffset c.sz) := by
          rw [hop, piece, hsel]
          exact if_neg hlong
        rw [callStep_ok hdone hok hp, erasePass]
        dsimp only
        split
        · rfl
        · rename_i hneg
          rw [advance_eq (piece_len hc hdone hin hp (Int.not_lt.mp hneg)).2]
  · rw [callStep, eraseStep, if_neg hdone, if_neg hdone]

def ReadState.transfer (s : ReadState) : Transfer := ⟨s.pos, s.ua, s.sent, s.res⟩

theorem callStep_read {call : Call} (hop : call.op = .read)
    (hok : ∀ sent, call.outcome sent = none) (b : Board) (s : ReadState) :
    callStep ni call s.transfer =
      match readStep b ni call.len s with
      | .next s' => .next s'.transfer
      | .ret s' => .ret s'.transfer
      | .halt e => .halt e := by
  have hlen := call.len_lt
  by_cases hdone : s.pos.doneB < call.len
  · have hunit : readUnit = 1023 := rfl
    generalize hn : min (min (call.len - s.pos.doneB) readUnit)
      (ni.size - s.pos.nextOffset) = n
    have hp : piece ni call.op (call.len - s.pos.doneB) s.pos s.sent =
        .ok (n, .read s.pos.cs s.pos.nextOffset n) := by
      rw [hop, piece, hn]
    have hstep := callStep_ok (s := s.transfer) hdone hok hp
    rw [hstep, s32_of_lt (by omega), advance_eq (by dsimp only [ReadState.transfer]; omega),
      if_neg (by omega), readStep, if_pos hdone, hn]
    rfl
  · have hdone' : ¬ s.transfer.pos.doneB < call.len := hdone
    rw [callStep, readStep, if_neg hdone', if_neg hdone]

structure Session (ni : Info) where
  calls : List Call
  sent : List Command
  ran : Ran ni calls sent

/-- Between requests every chip is at rest. In the next one, whatever it is and however far it
has got, nothing is sent beyond 16 MB before the chip is switched, and it ends. -/
def KeepsModes (ni : Info) (past : Session ni) : Prop :=
  ni.dyn4bAddrSwitch = true →
    AtRest ni past.sent ∧
    (∀ call sent, CallSends ni call sent → AllSwitched ni sent) ∧
    ∀ call : Call, call.Counts → ∃ sent, CallEnds ni call sent

theorem nor_modes_restored (ni : Info) (past : Session ni) : KeepsModes ni past := by
  intro hd
  refine ⟨past.ran.atRest hd, ?_, ?_⟩
  · exact fun call sent h => callSends_switched hd h
  · exact fun call hc => exists_callEnds ni hc

end BismarckPreloader.Nor
