import BismarckPreloader.Cli.Editor
import Mathlib.Data.List.Induction

/-!
# Key histories

Two results about every sequence of keys. The editor stays inside its buffers exactly if every
TAB makes a line that fits: typed keys are limited, but a completion is copied whatever its
length. And what is executed is what a plain line editor shows (`refLine`), exactly if every key
has room: a TAB that makes the line shorter does not move the cursor back to the new end, and a
character typed behind a long completion is dropped.
-/

namespace BismarckPreloader.Cli

def Keeps (buf buf' : List UInt8) : Prop :=
  buf'.length = buf.length ∧ ∀ i : Nat, buf[i]? = some 0 → buf'[i]? = some 0

theorem Keeps.refl (buf : List UInt8) : Keeps buf buf := ⟨rfl, fun _ h => h⟩

theorem Keeps.trans {a b c : List UInt8} (h : Keeps a b) (h' : Keeps b c) : Keeps a c :=
  ⟨h'.1.trans h.1, fun i hi => h'.2 i (h.2 i hi)⟩

theorem Keeps.set_zero (buf : List UInt8) (j : Nat) : Keeps buf (buf.set j 0) := by
  refine ⟨List.length_set, fun i hi => ?_⟩
  rw [List.getElem?_set]
  split
  next h =>
    subst h
    rw [if_pos (List.getElem?_eq_some_iff.mp hi).1]
  next => exact hi

-- ---------------------------------------------------------------------------
-- Execution
-- ---------------------------------------------------------------------------

namespace Tables

variable {φ υ : Type} {T : Tables φ υ}

/-- `_cli_exec` only writes NULs. -/
def KeepsOutcome (buf : List UInt8) : Outcome (Exec φ υ T.size) (Result φ υ) Fault → Prop
  | .next s => Keeps buf s.buf
  | .ret r => Keeps buf r.buf
  | .halt _ => True

theorem push_keeps (s : Exec φ υ T.size) (tkn p : Nat) :
    KeepsOutcome (T := T) s.buf (s.push tkn p) := by
  unfold Exec.push
  split
  · split
    · trivial
    · cases store s.argv s.wc (some tkn) with
      | error e => trivial
      | ok argv =>
        rw [Outcome.attempt_ok]
        split
        · exact Keeps.set_zero s.buf p
        · exact Keeps.refl s.buf
  · exact Keeps.refl s.buf

theorem execStep_keeps (s : Exec φ υ T.size) : KeepsOutcome s.buf (T.execStep s) := by
  unfold execStep
  cases firstToken s.buf s.p with
  | error e => trivial
  | ok r =>
    rw [Outcome.attempt_ok]
    obtain ⟨_ | tkn, p⟩ := r
    · dsimp only
      split
      · exact Keeps.refl s.buf
      · split
        · exact Keeps.refl s.buf
        · cases store s.argv s.wc none with
          | error e => trivial
          | ok argv => exact Keeps.refl s.buf
    · dsimp only
      split
      · exact push_keeps s tkn p
      next parent _ =>
        cases T.matchNodeName s.buf parent tkn with
        | error e => trivial
        | ok node =>
          rw [Outcome.attempt_ok]
          cases node with
          | none =>
            dsimp only
            split
            · exact Keeps.refl s.buf
            · cases T.matchTailName s.buf none tkn with
              | error e => trivial
              | ok tail => exact push_keeps { s with user := _, parent := none } tkn p
          | some b => exact push_keeps { s with func := _, parent := some (some b) } tkn p

theorem run_keeps (k : Nat) (s : Exec φ υ T.size) :
    KeepsOutcome s.buf (Loop.run T.execStep k s) := by
  induction k generalizing s with
  | zero => exact Keeps.refl s.buf
  | succ k ih =>
    have hstep := execStep_keeps s
    cases ho : T.execStep s with
    | next s' =>
      rw [ho] at hstep
      rw [Loop.run_succ_next ho]
      have hrun := ih s'
      cases hr : Loop.run T.execStep k s' with
      | next s'' =>
        rw [hr] at hrun
        exact Keeps.trans hstep hrun
      | ret r =>
        rw [hr] at hrun
        exact Keeps.trans hstep hrun
      | halt e => trivial
    | ret r =>
      rw [Loop.run_succ_exit ho rfl]
      rwa [ho] at hstep
    | halt e =>
      rw [Loop.run_succ_exit ho rfl]
      trivial

end Tables

namespace Shell

variable {φ υ : Type} {S : Shell φ υ}

theorem execute_cases (s : Editor) {t : List UInt8} (h : Holds s.buf 0 t) :
    S.execute s = .ret () ∨
      ∃ buf, S.execute s = .next { s with p := 0, buf := buf } ∧ Keeps s.buf buf := by
  unfold execute
  split
  · exact .inr ⟨s.buf, rfl, Keeps.refl s.buf⟩
  · obtain ⟨r, hr, -⟩ := Line.ends ⟨S.toTables, S.stack, s.buf, t, h⟩
    have hle : (tokens t).length + 1 ≤ s.buf.length + 1 :=
      Nat.succ_le_succ (Nat.le_trans (Tables.length_tokens_le t) (Nat.le_of_lt h.length_lt))
    have hrun := Loop.run_mono hr rfl hle
    have hkeep := Tables.run_keeps (T := S.toTables) (s.buf.length + 1)
      (S.execStart S.stack s.buf)
    rw [hrun] at hkeep
    rw [show Loop.run S.execStep (s.buf.length + 1) (S.execStart S.stack s.buf) = .ret r from hrun]
    dsimp only
    split
    · exact .inl rfl
    · exact .inr ⟨_, rfl, Keeps.trans hkeep (Keeps.set_zero _ 0)⟩

end Shell

-- ---------------------------------------------------------------------------
-- Inside the buffers
-- ---------------------------------------------------------------------------

def Editor.line (s : Editor) : List UInt8 := (s.buf.set s.p 0).takeWhile (· != 0)

theorem holds_takeWhile {buf : List UInt8} (h : (0 : UInt8) ∈ buf) :
    Holds buf 0 (buf.takeWhile (· != 0)) := by
  have hne : buf.dropWhile (· != 0) ≠ [] := by
    rw [Ne, List.dropWhile_eq_nil_iff]
    intro hall
    simpa using hall 0 h
  obtain ⟨x, rest, hx⟩ := List.exists_cons_of_ne_nil hne
  have hzero : x = 0 := by
    have := List.head_dropWhile_not (· != 0) hne
    simpa [hx] using this
  refine ⟨fun c hc => by simpa using List.mem_takeWhile_imp hc, rest, ?_⟩
  have hsplit := List.takeWhile_append_dropWhile (p := (· != 0)) (l := buf)
  rw [hx, hzero] at hsplit
  rw [List.drop_zero, hsplit]

theorem Holds.unique {buf t t' : List UInt8} (h : Holds buf 0 t) (h' : Holds buf 0 t') :
    t = t' := by
  have htake : ∀ {u}, Holds buf 0 u → buf.takeWhile (· != 0) = u := by
    rintro u ⟨hne, rest, hrest⟩
    rw [List.drop_zero] at hrest
    rw [hrest, List.takeWhile_append_of_pos (fun c hc => by simpa using hne c hc),
      List.takeWhile_cons_of_neg (by simp), List.append_nil]
  exact (htake h).symm.trans (htake h')

theorem holds_of_getElem? {buf : List UInt8} {i : Nat} (h : buf[i]? = some 0) :
    Holds buf 0 (buf.takeWhile (· != 0)) := holds_takeWhile (List.mem_of_getElem? h)

/-- The sizes of the buffers, a cursor inside, and a NUL in the last line or behind it, so that
the last line can be repeated. -/
structure Editor.Fine (s : Editor) : Prop where
  buf : s.buf.length = lineBufSz
  backup : s.backup.length = cmdInpBufSz
  cursor : s.p < lineBufSz
  ends : (0 : UInt8) ∈ s.backup ∨ ∃ i, cmdInpBufSz ≤ i ∧ s.buf[i]? = some 0

theorem Editor.Fine.closed {s : Editor} (h : s.Fine) : Holds (s.buf.set s.p 0) 0 s.line := by
  have hlt : s.p < s.buf.length := by
    rw [h.buf]
    exact h.cursor
  refine holds_of_getElem? (i := s.p) ?_
  rw [List.getElem?_set_self hlt]

namespace Shell

variable {φ υ : Type} {S : Shell φ υ} {s : Editor}

theorem step_tab (h : s.p < s.buf.length) : S.step s charTab =
    .attempt (S.suggestText (s.buf.set s.p 0)) fun buf =>
    .attempt (scan (· != 0) (buf.drop s.p)) fun n => .next { s with buf := buf, p := s.p + n } := by
  rw [step, if_neg (by decide), if_neg (by decide), if_neg (by decide), if_pos rfl, store_ok h,
    Outcome.attempt_ok]

/-- What a step may do: go on with the buffers in order, return, or fail at a TAB that makes
too long a line. -/
def Stays (S : Shell φ υ) (s : Editor) (chr : UInt8) : Outcome Editor Unit Fault → Prop
  | .next s' => s'.Fine
  | .ret _ => True
  | .halt _ => chr = charTab ∧ lineBufSz ≤ (S.tabLine s.line).length

theorem execute_stays (hb : s.buf.length = lineBufSz) (hk : s.backup.length = cmdInpBufSz)
    (he : (0 : UInt8) ∈ s.backup ∨ ∃ i, cmdInpBufSz ≤ i ∧ s.buf[i]? = some 0)
    {t : List UInt8} (ht : Holds s.buf 0 t) (chr : UInt8) (s₀ : Editor) :
    S.Stays s₀ chr (S.execute s) := by
  rcases S.execute_cases s ht with h | ⟨buf, h, hkeep⟩
  · rw [h]
    trivial
  · rw [h]
    refine ⟨hkeep.1.trans hb, hk, show 0 < lineBufSz by decide, he.imp_right ?_⟩
    rintro ⟨i, hi, hz⟩
    exact ⟨i, hi, hkeep.2 i hz⟩

theorem tab_stays (h : s.Fine) (hl : (S.tabLine s.line).length < lineBufSz) :
    ∃ s', S.step s charTab = .next s' ∧ s'.Fine := by
  have hlt : s.p < s.buf.length := h.buf ▸ h.cursor
  have hclosed := h.closed
  have hlen : (s.buf.set s.p 0).length = lineBufSz := List.length_set.trans h.buf
  obtain ⟨buf, hbuf, hh, hlen', hsame⟩ := S.suggestText_ok hclosed (by rw [hlen]; exact hl)
  have hnul : buf[(S.tabLine s.line).length]? = some 0 := by
    have := hh.getElem? (Nat.le_refl _)
    simpa using this
  -- the NUL the cursor stops at: the end of the new line or, behind it, the one at the cursor
  obtain ⟨j, hj, hjz, hjlt⟩ : ∃ j, s.p ≤ j ∧ buf[j]? = some 0 ∧ j < lineBufSz := by
    by_cases hp : s.p ≤ (S.tabLine s.line).length
    · exact ⟨_, hp, hnul, hl⟩
    · refine ⟨s.p, Nat.le_refl _, ?_, h.cursor⟩
      rw [hsame s.p (by omega), List.getElem?_set_self hlt]
  obtain ⟨n, hn, hnlt⟩ : ∃ n, scan (· != 0) (buf.drop s.p) = .ok n ∧ s.p + n < lineBufSz := by
    have hmem : (0 : UInt8) ∈ buf.drop s.p := by
      refine List.mem_of_getElem? (i := j - s.p) ?_
      rw [List.getElem?_drop, Nat.add_sub_cancel' hj]
      exact hjz
    obtain ⟨hne, rest, hrest⟩ := holds_takeWhile hmem
    rw [List.drop_zero] at hrest
    refine ⟨_, by rw [hrest]; exact scan_append (fun c hc => by simpa using hne c hc) rfl, ?_⟩
    have := congrArg List.length hrest
    rw [List.length_drop, hlen', hlen, List.length_append, List.length_cons] at this
    have hcur := h.cursor
    omega
  refine ⟨{ s with buf := buf, p := s.p + n }, ?_, hlen'.trans hlen, h.backup, hnlt, ?_⟩
  · rw [step_tab hlt, hbuf, Outcome.attempt_ok, hn, Outcome.attempt_ok]
  · refine h.ends.imp_right ?_
    rintro ⟨i, hi, hz⟩
    by_cases hc : cmdInpBufSz ≤ (S.tabLine s.line).length
    · exact ⟨_, hc, hnul⟩
    · refine ⟨i, hi, ?_⟩
      rw [hsame i (by omega)]
      exact (Keeps.set_zero s.buf s.p).2 i hz

theorem tab_halts (h : s.Fine) (hl : lineBufSz ≤ (S.tabLine s.line).length) :
    S.step s charTab = .halt .outside := by
  have hlt : s.p < s.buf.length := h.buf ▸ h.cursor
  have herr := S.suggestText_error h.closed (by rw [List.length_set, h.buf]; exact hl)
  rw [step_tab hlt, herr, Outcome.attempt_error]

theorem enter_stays (h : s.Fine) : S.Stays s charEnter (S.step s charEnter) := by
  have hlt : s.p < s.buf.length := h.buf ▸ h.cursor
  rw [step, if_neg (by decide), if_neg (by decide), if_neg (by decide), if_neg (by decide),
    if_pos rfl, store_ok hlt, Outcome.attempt_ok]
  have hz : (s.buf.set s.p 0)[s.p]? = some 0 := List.getElem?_set_self hlt
  have hlen : (s.buf.set s.p 0).length = lineBufSz := List.length_set.trans h.buf
  refine execute_stays hlen ?_ ?_ (holds_of_getElem? hz) _ _
  · rw [List.length_take, hlen]
    rfl
  · by_cases hp : s.p < cmdInpBufSz
    · exact .inl (List.mem_of_getElem? (by rw [List.getElem?_take_of_lt hp, hz]))
    · exact .inr ⟨s.p, by omega, hz⟩

theorem del_stays (h : s.Fine) : S.Stays s charDel (S.step s charDel) := by
  rw [step, if_neg (by decide), if_neg (by decide), if_neg (by decide), if_neg (by decide),
    if_neg (by decide), if_pos rfl]
  have hlen : (s.backup ++ s.buf.drop cmdInpBufSz).length = lineBufSz := by
    rw [List.length_append, List.length_drop, h.backup, h.buf]
    rfl
  have hbehind : ∀ i, cmdInpBufSz ≤ i → (s.backup ++ s.buf.drop cmdInpBufSz)[i]? = s.buf[i]? := by
    intro i hi
    rw [List.getElem?_append_right (by rw [h.backup]; exact hi), List.getElem?_drop, h.backup,
      Nat.add_sub_cancel' hi]
  have hends : (0 : UInt8) ∈ s.backup ∨
      ∃ i, cmdInpBufSz ≤ i ∧ (s.backup ++ s.buf.drop cmdInpBufSz)[i]? = some 0 := by
    refine h.ends.imp_right ?_
    rintro ⟨i, hi, hz⟩
    exact ⟨i, hi, (hbehind i hi).trans hz⟩
  refine execute_stays (s := { s with buf := s.backup ++ s.buf.drop cmdInpBufSz }) hlen h.backup
    hends (holds_takeWhile ?_) _ _
  rcases hends with hz | ⟨i, -, hz⟩
  · exact List.mem_append_left _ hz
  · exact List.mem_of_getElem? hz

theorem step_stays (h : s.Fine) (chr : UInt8) : S.Stays s chr (S.step s chr) := by
  by_cases htab : chr = charTab
  · subst htab
    by_cases hl : (S.tabLine s.line).length < lineBufSz
    · obtain ⟨s', hs, hf⟩ := tab_stays (S := S) h hl
      rw [hs]
      exact hf
    · rw [tab_halts h (by omega)]
      exact ⟨rfl, by omega⟩
  by_cases henter : chr = charEnter
  · subst henter
    exact enter_stays h
  by_cases hdel : chr = charDel
  · subst hdel
    exact del_stays h
  have hcur := h.cursor
  unfold step
  split
  · exact h
  split
  · exact ⟨h.buf, h.backup, show 0 < lineBufSz by decide, h.ends⟩
  split
  · exact ⟨h.buf, h.backup, by dsimp only; omega, h.ends⟩
  split
  · exact h
  split
  next hp =>
    have hlt : s.p < s.buf.length := h.buf ▸ h.cursor
    rw [store_ok hlt, Outcome.attempt_ok]
    refine ⟨List.length_set.trans h.buf, h.backup, ?_, h.ends.imp_right ?_⟩
    · simp only [cmdInpBufSz, lineBufSz] at hp ⊢
      omega
    · rintro ⟨i, hi, hz⟩
      exact ⟨i, hi, by rw [List.getElem?_set_ne (by omega), hz]⟩
  next => exact h

end Shell

/-- A call of `cli_main_loop`, with what its buffers hold before. -/
structure Session (φ υ : Type) extends Shell φ υ where
  cmdBuf : List UInt8
  cmdBackup : List UInt8
  cmdBuf_length : cmdBuf.length = lineBufSz
  cmdBackup_length : cmdBackup.length = cmdInpBufSz

namespace Session

variable {φ υ : Type} (x : Session φ υ)

def start : Editor where
  buf := x.cmdBuf
  p := 0
  backup := x.cmdBackup.set 0 0

theorem start_fine : x.start.Fine where
  buf := x.cmdBuf_length
  backup := List.length_set.trans x.cmdBackup_length
  cursor := show 0 < lineBufSz by decide
  ends := .inl (List.mem_of_getElem? (i := 0)
    (List.getElem?_set_self (by rw [x.cmdBackup_length]; decide)))

def Inside (keys : List UInt8) : Prop := ∀ e, Scan.run x.step x.start keys ≠ .halt e

theorem reached_fine {keys : List UInt8} {s : Editor} {chr : UInt8}
    (h : Scan.Reaches x.step x.start keys s chr) : s.Fine := by
  refine Scan.reaches_inv Editor.Fine x.start_fine (fun s chr s' _ hs hstep => ?_) h
  have := Shell.step_stays (S := x.toShell) hs chr
  rwa [hstep] at this

theorem tabs_fit {keys : List UInt8} (h : x.Inside keys) {s : Editor}
    (hs : Scan.Reaches x.step x.start keys s charTab) :
    (x.tabLine s.line).length < lineBufSz := by
  by_contra hl
  refine h .outside ((Scan.run_eq_iff rfl).mpr ⟨s, charTab, hs, ?_⟩)
  exact Shell.tab_halts (x.reached_fine hs) (by omega)

/-- The editor stays inside its buffers exactly if every TAB makes a line that fits. -/
theorem writesInside_iff (keys : List UInt8) : x.Inside keys ↔
    ∀ s, Scan.Reaches x.step x.start keys s charTab → (x.tabLine s.line).length < lineBufSz := by
  constructor
  · intro h s hs
    exact x.tabs_fit h hs
  · intro h e he
    obtain ⟨s, chr, hs, hstep⟩ := (Scan.run_eq_iff rfl).mp he
    have hstays := Shell.step_stays (S := x.toShell) (x.reached_fine hs) chr
    rw [hstep] at hstays
    obtain ⟨rfl, hl⟩ := hstays
    have := h s hs
    omega

end Session

-- ---------------------------------------------------------------------------
-- The reference editor
-- ---------------------------------------------------------------------------

def Tables.refStep {φ υ : Type} (T : Tables φ υ) (t : List UInt8) (chr : UInt8) : List UInt8 :=
  if chr = charBackspace then t.dropLast
  else if chr = charTab then T.tabLine t
  else t ++ [chr]

def Tables.refLine {φ υ : Type} (T : Tables φ υ) (keys : List UInt8) : List UInt8 :=
  keys.foldl T.refStep []

theorem Tables.refLine_concat {φ υ : Type} (T : Tables φ υ) (keys : List UInt8) (chr : UInt8) :
    T.refLine (keys ++ [chr]) = T.refStep (T.refLine keys) chr := by
  rw [refLine, List.foldl_append]
  rfl

theorem Tables.refStep_tab {φ υ : Type} (T : Tables φ υ) (t : List UInt8) :
    T.refStep t charTab = T.tabLine t := by
  rw [refStep, if_neg (by decide), if_pos rfl]

theorem printable_ne {chr k : UInt8} (h : printable chr = true) (hk : printable k = false) :
    chr ≠ k := by
  rintro rfl
  exact Bool.noConfusion (hk.symm.trans h)

theorem Tables.refStep_char {φ υ : Type} (T : Tables φ υ) (t : List UInt8) {chr : UInt8}
    (h : printable chr = true) : T.refStep t chr = t ++ [chr] := by
  rw [refStep, if_neg (printable_ne h (by decide)), if_neg (printable_ne h (by decide))]

structure Editor.Shows (s : Editor) (t : List UInt8) : Prop where
  size : s.buf.length = lineBufSz
  plain : ∀ c ∈ t, c ≠ 0
  cursor : s.p = t.length
  text : s.buf.take s.p = t

theorem Editor.Shows.holds {s : Editor} {t : List UInt8} (h : s.Shows t)
    (hl : t.length < lineBufSz) :
    Holds (s.buf.set s.p 0) 0 t := by
  refine ⟨h.plain, s.buf.drop (s.p + 1), ?_⟩
  rw [List.drop_zero, List.set_eq_take_append_cons_drop,
    if_pos (by rw [h.size, h.cursor]; exact hl),
    h.text]

namespace Shell

variable {φ υ : Type} {S : Shell φ υ} {s : Editor} {t : List UInt8}

theorem step_printable (s : Editor) {chr : UInt8} (hp : printable chr = true) :
    S.step s chr = if s.p < cmdInpBufSz then
      .attempt (store s.buf s.p chr) fun buf => .next { s with buf := buf, p := s.p + 1 }
    else .next s := by
  rw [step, if_neg (printable_ne hp (by decide)), if_neg (printable_ne hp (by decide)),
    if_neg (printable_ne hp (by decide)), if_neg (printable_ne hp (by decide)),
    if_neg (printable_ne hp (by decide)), if_neg (printable_ne hp (by decide)),
    if_neg (not_not.mpr hp)]

theorem step_full {chr : UInt8} (hp : printable chr = true) (h : cmdInpBufSz ≤ s.p) :
    S.step s chr = .next s := by
  rw [step_printable s hp, if_neg (Nat.not_lt.mpr h)]

theorem type_shows (h : s.Shows t) {chr : UInt8} (hp : printable chr = true)
    (hl : t.length < cmdInpBufSz) :
    ∃ s', S.step s chr = .next s' ∧ s'.Shows (t ++ [chr]) := by
  have hlt : s.p < s.buf.length := by
    rw [h.size, h.cursor, lineBufSz]
    omega
  refine ⟨{ s with buf := s.buf.set s.p chr, p := s.p + 1 }, ?_,
    List.length_set.trans h.size, ?_, ?_, ?_⟩
  · rw [step_printable s hp, if_pos (by rw [h.cursor]; exact hl), store_ok hlt, Outcome.attempt_ok]
  · intro c hc
    rcases List.mem_append.mp hc with hc | hc
    · exact h.plain c hc
    · rw [List.mem_singleton.mp hc]
      exact printable_ne hp (by decide)
  · rw [List.length_append, ← h.cursor, List.length_singleton]
  · dsimp only
    rw [List.set_eq_take_append_cons_drop, if_pos hlt, List.take_append, h.text,
      List.take_of_length_le (by rw [h.cursor]; omega), h.cursor, Nat.add_sub_cancel_left]
    rfl

theorem backspace_shows (h : s.Shows t) :
    ∃ s', S.step s charBackspace = .next s' ∧ s'.Shows t.dropLast := by
  refine ⟨{ s with p := s.p - 1 }, ?_, h.size, ?_, ?_, ?_⟩
  · rw [step, if_neg (by decide), if_neg (by decide), if_pos rfl]
  · exact fun c hc => h.plain c (List.dropLast_subset t hc)
  · rw [List.length_dropLast, h.cursor]
  · dsimp only
    rw [List.dropLast_eq_take, ← h.text, List.take_take, h.text, ← h.cursor]
    congr 1
    omega

theorem tab_shows (h : s.Shows t) (hl : t.length < lineBufSz)
    (hn : (S.tabLine t).length < lineBufSz) :
    ∃ s', S.step s charTab = .next s' ∧ s'.buf.length = lineBufSz ∧
      Holds s'.buf 0 (S.tabLine t) ∧ s'.p = max t.length (S.tabLine t).length := by
  have hlt : s.p < s.buf.length := by
    rw [h.size, h.cursor]
    exact hl
  have hlen : (s.buf.set s.p 0).length = lineBufSz := List.length_set.trans h.size
  obtain ⟨buf, hbuf, hh, hlen', hsame⟩ := S.suggestText_ok (h.holds hl) (by rw [hlen]; exact hn)
  have hscan : scan (· != 0) (buf.drop s.p) = .ok ((S.tabLine t).length - t.length) := by
    by_cases hle : t.length ≤ (S.tabLine t).length
    · have hsplit := List.take_append_drop s.p (S.tabLine t)
      have hrest : Holds buf s.p ((S.tabLine t).drop s.p) := by
        rw [← hsplit] at hh
        have := hh.append
        rwa [List.length_take, Nat.min_eq_left (by rw [h.cursor]; exact hle), Nat.zero_add] at this
      obtain ⟨hne, rest, hdrop⟩ := hrest
      rw [hdrop, scan_append (fun c hc => by simpa using hne c hc) rfl, List.length_drop, h.cursor]
    · -- the byte at the cursor is still the NUL written there
      have hz : buf[s.p]? = some 0 := by
        rw [hsame s.p (by rw [h.cursor]; omega), List.getElem?_set_self hlt]
      have hp : s.p < buf.length := (List.getElem?_eq_some_iff.mp hz).1
      rw [List.drop_eq_getElem_cons hp, (List.getElem?_eq_some_iff.mp hz).2,
        show (S.tabLine t).length - t.length = 0 by omega]
      rfl
  refine ⟨{ s with buf := buf, p := s.p + ((S.tabLine t).length - t.length) }, ?_, hlen'.trans hlen,
    hh, ?_⟩
  · rw [step_tab hlt, hbuf, Outcome.attempt_ok, hscan, Outcome.attempt_ok]
  · dsimp only
    rw [h.cursor]
    omega

end Shell

/-- Keys that are typed, none of which ends the line, fewer than the buffer has bytes. The lines
they make may still be longer: a TAB writes several characters. -/
structure Typed (φ υ : Type) extends Session φ υ where
  keys : List UInt8
  kinds : ∀ k ∈ keys, printable k = true ∨ k = charBackspace ∨ k = charTab
  short : keys.length < cmdInpBufSz

namespace Typed

variable {φ υ : Type} (x : Typed φ υ)

/-- Wherever ENTER comes, it hands over the line of the reference editor, and after every TAB the
cursor is at the end of the string in the buffer. -/
structure AsTyped : Prop where
  passed : ∀ before, before <+: x.keys → ∃ s, Scan.run x.step x.start before = .next s ∧
    Holds (s.buf.set s.p 0) 0 (x.refLine before)
  cursor : ∀ before s, before ++ [charTab] <+: x.keys →
    Scan.run x.step x.start (before ++ [charTab]) = .next s → Holds s.buf 0 (s.buf.take s.p)

/-- There is room for what the key does to the line `t`: a TAB makes a line that is not shorter
and fits into `cmd_buf`, a character finds fewer than `CMD_INP_BUF_SZ` in front of it. -/
def HasRoom (t : List UInt8) (chr : UInt8) : Prop :=
  if chr = charTab then
    t.length ≤ (x.tabLine t).length ∧ (x.tabLine t).length < lineBufSz
  else chr = charBackspace ∨ t.length < cmdInpBufSz

def Roomy (keys : List UInt8) : Prop :=
  ∀ before chr, before ++ [chr] <+: keys → x.HasRoom (x.refLine before) chr

theorem hasRoom_tab {t : List UInt8} : x.HasRoom t charTab ↔
    t.length ≤ (x.tabLine t).length ∧ (x.tabLine t).length < lineBufSz := by
  rw [HasRoom, if_pos rfl]

theorem hasRoom_char {t : List UInt8} {chr : UInt8} (h : printable chr = true) :
    x.HasRoom t chr ↔ t.length < cmdInpBufSz := by
  rw [HasRoom, if_neg (printable_ne h (by decide)),
    or_iff_right (printable_ne h (by decide))]

theorem start_shows : x.start.Shows [] := ⟨x.cmdBuf_length, nofun, rfl, rfl⟩

theorem step_shows {s : Editor} {t : List UInt8} {chr : UInt8} (hs : s.Shows t)
    (ht : t.length < lineBufSz) (hk : printable chr = true ∨ chr = charBackspace ∨ chr = charTab)
    (h : x.HasRoom t chr) :
    ∃ s', x.step s chr = .next s' ∧ s'.Shows (x.refStep t chr) ∧
      (x.refStep t chr).length < lineBufSz := by
  rcases hk with hp | rfl | rfl
  · have hl := (x.hasRoom_char hp).mp h
    obtain ⟨s', h1, h2⟩ := Shell.type_shows (S := x.toShell) hs hp hl
    rw [x.refStep_char t hp]
    refine ⟨s', h1, h2, ?_⟩
    rw [List.length_append, List.length_singleton, lineBufSz]
    omega
  · obtain ⟨s', h1, h2⟩ := Shell.backspace_shows (S := x.toShell) hs
    refine ⟨s', h1, h2, ?_⟩
    rw [Tables.refStep, if_pos rfl, List.length_dropLast]
    omega
  · obtain ⟨hlong, hnew⟩ := x.hasRoom_tab.mp h
    obtain ⟨s', h1, h2, h3, h4⟩ := Shell.tab_shows (S := x.toShell) hs ht hnew
    rw [Tables.refStep_tab]
    refine ⟨s', h1, ⟨h2, h3.1, ?_, ?_⟩, hnew⟩
    · rw [h4, Nat.max_eq_right hlong]
    · rw [h4, Nat.max_eq_right hlong, h3.take (Nat.le_refl _), List.take_length]

theorem run_shows {before : List UInt8} (hb : before <+: x.keys) (hr : x.Roomy before) :
    ∃ s, Scan.run x.step x.start before = .next s ∧ s.Shows (x.refLine before) ∧
      (x.refLine before).length < lineBufSz := by
  induction before using List.reverseRecOn with
  | nil => exact ⟨x.start, rfl, x.start_shows, show 0 < lineBufSz by decide⟩
  | append_singleton before chr ih =>
    obtain ⟨s, hs, hsh, hlen⟩ := ih ((List.prefix_append _ _).trans hb)
      fun b c h => hr b c (h.trans (List.prefix_append _ _))
    have hk := x.kinds chr (hb.subset (by simp))
    obtain ⟨s', h1, h2⟩ := x.step_shows hsh hlen hk (hr before chr List.prefix_rfl)
    rw [Tables.refLine_concat]
    exact ⟨s', by rw [Scan.run_append hs, Scan.run_cons_next h1, Scan.run_nil], h2⟩

theorem asTyped_of_roomy (h : x.Roomy x.keys) : x.AsTyped where
  passed := by
    intro before hb
    obtain ⟨s, hs, hsh, hlen⟩ := x.run_shows hb fun b c hc => h b c (hc.trans hb)
    exact ⟨s, hs, hsh.holds hlen⟩
  cursor := by
    intro before s hb hs
    obtain ⟨s₀, hs₀, hsh, hlen⟩ := x.run_shows ((List.prefix_append _ _).trans hb)
      fun b c hc => h b c (hc.trans ((List.prefix_append _ _).trans hb))
    obtain ⟨hlong, hnew⟩ := x.hasRoom_tab.mp (h before charTab hb)
    obtain ⟨s', h1, -, hh, hp⟩ := Shell.tab_shows (S := x.toShell) hsh hlen hnew
    rw [Scan.run_append hs₀, Scan.run_cons_next h1, Scan.run_nil] at hs
    cases hs
    rw [hp, Nat.max_eq_right hlong, hh.take (Nat.le_refl _), List.take_length]
    exact hh

theorem hasRoom_of_tab (h : x.AsTyped) {before : List UInt8} (hb : before ++ [charTab] <+: x.keys)
    {s : Editor} (hs : Scan.run x.step x.start before = .next s) (hsh : s.Shows (x.refLine before))
    (hlen : (x.refLine before).length < lineBufSz) : x.HasRoom (x.refLine before) charTab := by
  obtain ⟨s₁, hs₁, -⟩ := h.passed _ hb
  have hreach : Scan.Reaches x.step x.start (before ++ [charTab]) s charTab :=
    ⟨before, [], rfl, hs⟩
  have hfine := x.reached_fine hreach
  have hline : s.line = x.refLine before := hfine.closed.unique (hsh.holds hlen)
  have hnew : (x.tabLine (x.refLine before)).length < lineBufSz := by
    refine hline ▸ x.tabs_fit (fun e he => ?_) hreach
    nomatch hs₁.symm.trans he
  obtain ⟨s', h1, hsize, hh, hp⟩ := Shell.tab_shows (S := x.toShell) hsh hlen hnew
  have hrun : Scan.run x.step x.start (before ++ [charTab]) = .next s' := by
    rw [Scan.run_append hs, Scan.run_cons_next h1, Scan.run_nil]
  have hend := congrArg List.length (hh.unique (h.cursor before s' hb hrun))
  rw [List.length_take, hsize, hp] at hend
  exact x.hasRoom_tab.mpr ⟨by omega, hnew⟩

theorem hasRoom_of_char (h : x.AsTyped) {before : List UInt8} {chr : UInt8}
    (hb : before ++ [chr] <+: x.keys) (hp : printable chr = true) {s : Editor}
    (hs : Scan.run x.step x.start before = .next s) (hsh : s.Shows (x.refLine before))
    (hlen : (x.refLine before).length < lineBufSz) : x.HasRoom (x.refLine before) chr := by
  refine (x.hasRoom_char hp).mpr ?_
  by_contra hfull
  obtain ⟨s', hs', hh⟩ := h.passed _ hb
  have hdrop := Shell.step_full (S := x.toShell) hp (s := s) (by rw [hsh.cursor]; omega)
  rw [Scan.run_append hs, Scan.run_cons_next hdrop, Scan.run_nil] at hs'
  cases hs'
  have hsame := congrArg List.length ((hsh.holds hlen).unique hh)
  rw [Tables.refLine_concat, x.refStep_char _ hp, List.length_append,
    List.length_singleton] at hsame
  omega

theorem roomy_of_asTyped (h : x.AsTyped) : x.Roomy x.keys := by
  intro before
  -- by induction on the number of keys in front of the one that is looked at
  induction hn : before.length using Nat.strongRecOn generalizing before with
  | _ n ih =>
    intro chr hb
    have hpre : before <+: x.keys := (List.prefix_append _ _).trans hb
    have hbefore : x.Roomy before := by
      intro b c hc
      have := hc.length_le
      rw [List.length_append, List.length_singleton] at this
      exact ih b.length (by omega) b rfl c (hc.trans hpre)
    obtain ⟨s, hs, hsh, hlen⟩ := x.run_shows hpre hbefore
    rcases x.kinds chr (hb.subset (by simp)) with hp | rfl | rfl
    · exact x.hasRoom_of_char h hb hp hs hsh hlen
    · rw [HasRoom, if_neg (by decide)]
      exact .inl rfl
    · exact x.hasRoom_of_tab h hb hs hsh hlen

/-- What is typed is what is executed, exactly if every key has room: no TAB makes the line
shorter or longer than the buffer, and no character comes behind `CMD_INP_BUF_SZ` others. -/
theorem asTyped_iff : x.AsTyped ↔ x.Roomy x.keys :=
  ⟨x.roomy_of_asTyped, x.asTyped_of_roomy⟩

end Typed

-- ---------------------------------------------------------------------------
-- Sessions that go wrong
-- ---------------------------------------------------------------------------

theorem Session.run_typed {φ υ : Type} (x : Session φ υ) (keys : List UInt8)
    (hp : ∀ k ∈ keys, printable k = true) (hl : keys.length ≤ cmdInpBufSz) :
    ∃ s, Scan.run x.step x.start keys = .next s ∧ s.Shows keys := by
  induction keys using List.reverseRecOn with
  | nil => exact ⟨x.start, rfl, x.cmdBuf_length, nofun, rfl, rfl⟩
  | append_singleton keys chr ih =>
    rw [List.length_append, List.length_singleton] at hl
    obtain ⟨s, hs, hsh⟩ := ih (fun k hk => hp k (List.mem_append_left _ hk)) (by omega)
    obtain ⟨s', h1, h2⟩ := Shell.type_shows (S := x.toShell) hsh (hp chr (by simp)) (by omega)
    exact ⟨s', by rw [Scan.run_append hs, Scan.run_cons_next h1, Scan.run_nil], h2⟩

theorem abcde_plain : ∀ c ∈ ([0x61, 0x62, 0x63, 0x64, 0x65] : List UInt8), c ≠ 0 ∧ c ≠ space := by
  decide +kernel

def oneCommand : Session Unit Unit where
  size := 1
  node := fun _ => ⟨⟨_, abcde_plain⟩, none, some ()⟩
  mpNodes := []
  tails := []
  exits := fun _ => false
  stack := Argv.zero
  cmdBuf := List.replicate lineBufSz 0
  cmdBackup := List.replicate cmdInpBufSz 0
  cmdBuf_length := List.length_replicate
  cmdBackup_length := List.length_replicate

def longLine : List UInt8 := List.replicate 127 space ++ [0x61]

theorem oneCommand_tabLine : (oneCommand.tabLine longLine).length = lineBufSz := by
  decide +kernel

/-- Its completion does not fit. -/
theorem oneCommand_not_inside : ¬ oneCommand.Inside (longLine ++ [charTab]) := by
  intro h
  obtain ⟨s, hs, hsh⟩ := oneCommand.run_typed longLine (by decide +kernel) (by decide +kernel)
  have hreach : Scan.Reaches oneCommand.step oneCommand.start (longLine ++ [charTab]) s charTab :=
    ⟨longLine, [], rfl, hs⟩
  have hline : s.line = longLine :=
    (oneCommand.reached_fine hreach).closed.unique (hsh.holds (by decide +kernel))
  have hlt := oneCommand.tabs_fit h hreach
  rw [hline, oneCommand_tabLine] at hlt
  exact Nat.lt_irrefl _ hlt

def twoBlanks : List UInt8 := [0x61, 0x62, 0x63, 0x64, 0x65, space, space, charTab, 0x78]

theorem twoBlanks_kinds :
    ∀ k ∈ twoBlanks, printable k = true ∨ k = charBackspace ∨ k = charTab := by
  decide +kernel

theorem twoBlanks_short : twoBlanks.length < cmdInpBufSz := by
  decide

def typedTwoBlanks : Typed Unit Unit where
  toSession := oneCommand
  keys := twoBlanks
  kinds := twoBlanks_kinds
  short := twoBlanks_short

/-- The letter is lost. -/
theorem twoBlanks_not_asTyped : ¬ typedTwoBlanks.AsTyped := by
  intro h
  have hroom := typedTwoBlanks.roomy_of_asTyped h
    [0x61, 0x62, 0x63, 0x64, 0x65, space, space] charTab ⟨[0x78], rfl⟩
  have hle := (typedTwoBlanks.hasRoom_tab.mp hroom).1
  revert hle
  decide +kernel

end BismarckPreloader.Cli
