import BismarckPreloader.Vmimg.Jobs

/-!
# Flashing an image that was accepted

`check_vm_img` stops where the buffer ends, `upvmimg` where a key is unknown. As long as
every record is written, the two see the same records; from the end of the image on,
`upvmimg` goes by what happens to be in memory. It returns 0 whatever came of the records.
`faithful_iff` says for which memory, environment and results of the commands it has written the
image, all of it and nothing else.
-/

namespace BismarckPreloader.Vmimg

open Upgrade

-- ---------------------------------------------------------------------------
-- The records the check has seen
-- ---------------------------------------------------------------------------

namespace Buffer

/-- From an offset on, the check passes the records at the offsets in the list, and is
content at the last offset. -/
inductive Walk (x : Buffer) : UInt32 → List UInt32 → UInt32 → Prop where
  | done (past : ¬o < x.size) : Walk x o [] o
  | record (inside : o < x.size) (listed : x.Listed o) (aligned : x.imgSz o % 4 = 0)
      (rest : Walk x (x.after o) rs e) : Walk x o (o :: rs) e

variable {x : Buffer} {o e : UInt32} {rs : List UInt32}

theorem walk_of_run (h : Loop.run x.checkStep n ⟨o, reads⟩ = .ret (1, reads')) :
    ∃ rs e, x.Walk o rs e := by
  induction n generalizing o reads with
  | zero => cases h
  | succ n ih =>
    rcases check_cases h with ⟨-, -, h0, -⟩ | ⟨-, -, -, h0, -⟩ | ⟨hlt, hl, ha, h⟩ | ⟨hle, -, -⟩
    · cases h0
    · cases h0
    · obtain ⟨rs, e, hw⟩ := ih h
      exact ⟨o :: rs, e, .record hlt hl ha hw⟩
    · exact ⟨[], o, .done hle⟩

theorem CheckVmImg.walk (h : x.CheckVmImg 1 reads) : ∃ rs e, x.Walk 0 rs e := by
  unfold CheckVmImg at h
  split at h
  · cases h.1
  · obtain ⟨n, hn⟩ := h
    exact walk_of_run hn

theorem Walk.unique (h : x.Walk o rs e) (h' : x.Walk o rs' e') : rs = rs' ∧ e = e' := by
  induction h generalizing rs' e' with
  | done past =>
    cases h' with
    | done => exact ⟨rfl, rfl⟩
    | record inside => exact absurd inside past
  | record inside _ _ _ ih =>
    cases h' with
    | done past => exact absurd inside past
    | record _ _ _ rest =>
      obtain ⟨hrs, he⟩ := ih rest
      exact ⟨by rw [hrs], he⟩

theorem Walk.of_mem (h : x.Walk o rs e) (hr : r ∈ rs) :
    ∃ rs', x.Walk r rs' e ∧ rs'.length ≤ rs.length := by
  induction h with
  | done => cases hr
  | @record o _ _ inside listed aligned rest ih =>
    rcases List.mem_cons.mp hr with rfl | hr
    · exact ⟨_, .record inside listed aligned rest, Nat.le_refl _⟩
    · obtain ⟨rs', hw, hle⟩ := ih hr
      exact ⟨rs', hw, Nat.le_succ_of_le hle⟩

theorem Walk.nodup (h : x.Walk o rs e) : rs.Nodup := by
  induction h with
  | done => exact List.nodup_nil
  | @record o rs e inside listed aligned rest ih =>
    refine List.nodup_cons.mpr ⟨fun hmem => ?_, ih⟩
    obtain ⟨rs', hw, hle⟩ := rest.of_mem hmem
    obtain ⟨rfl, -⟩ := hw.unique (.record inside listed aligned rest)
    exact absurd hle (Nat.not_succ_le_self _)

def Holds (x : Buffer) (r : UInt32 × UInt32) : Prop :=
  (r.1 - x.img).toNat + r.2.toNat ≤ x.size.toNat

end Buffer

/-- A machine in whose memory there is an image that `check_vm_img` has accepted. -/
structure Accepted extends Machine where
  image : Buffer
  mem_nil : mem [] = image.mem
  accepted : ∃ reads, image.CheckVmImg 1 reads

namespace Machine

def state : Outcome FlashState (Int × FlashState) Empty → FlashState
  | .next s => s
  | .ret r => r.2

def Reached (m : Machine) (s t : FlashState) : Prop :=
  ∃ n, state (Loop.run m.flashStep n s) = t

def Confined (x : Buffer) (s : FlashState) : Prop :=
  ∀ c ∈ s.history, ∀ r ∈ c.sources, x.Holds r

/-- The record was handled without an error: its function returned the size, and none of the
command lines run for it failed. -/
def Fine (m : Machine) (p : Handled) : Prop :=
  0 ≤ p.ret ∧ ∃ cs, p.after = p.before ++ cs ∧ m.Succeed p.before cs

/-- Go on with the record written; `none` if it is not. -/
def written (h : List Command) (k : List Command → Option (List Command)) :
    Option (Cmd Int) → Option (List Command)
  | none => none
  | some act => if (act h).1 < 0 then none else k (act h).2

def flashRecords (m : Machine) (x : Buffer) : List UInt32 → List Command → Option (List Command)
  | [], h => some h
  | o :: rs, h =>
    written h (flashRecords m x rs) (m.handler ⟨x.key o, x.imgSz o⟩ (x.img + o + hdrSize))

/-- The jobs of the records are done, one record after the other, which leads from the history
`h` to `h'`. -/
def RecordsServed (m : Machine) (x : Buffer) : List UInt32 → List Command → List Command → Prop
  | [], h, h' => h' = h
  | o :: rs, h, h' => ∃ cs,
    m.Served (x.img + o + hdrSize) (x.imgSz o) (m.jobs (x.key o)) h cs ∧
      RecordsServed m x rs (h ++ cs) h'

/-- What the records write to flash ends in the image. -/
def Fits (m : Machine) (x : Buffer) (rs : List UInt32) : Prop :=
  ∀ o ∈ rs, ∀ j ∈ m.jobs (x.key o), ∀ len, m.flashes (x.imgSz o) j = some len →
    x.Holds (x.img + o + hdrSize, len)

/-- A key that ends the loop. -/
def Unknown (m : Machine) (key : UInt32) : Prop :=
  key ∉ vmimgKeyList ∧ ¬(m.oneUbi = true ∧ key = vmimgUbiDeviceKey)

-- ---------------------------------------------------------------------------
-- What the passes add
-- ---------------------------------------------------------------------------

variable {m : Machine} {x : Buffer}

theorem handler_eq_none {hdr : Hdr} {src : UInt32} :
    m.handler hdr src = none ↔ m.Unknown hdr.key := by
  constructor
  · intro h
    refine ⟨fun hl => ?_, fun hu => ?_⟩
    · obtain ⟨act, ha, -⟩ := handler_listed (m := m) hl src
      cases ha.symm.trans h
    · unfold handler at h
      repeat (split at h; · cases h)
      contradiction
  · rintro ⟨hl, hu⟩
    simp only [vmimgKeyList, List.mem_cons, List.not_mem_nil, or_false, not_or] at hl
    obtain ⟨h1, h2, h3, h4, h5, h6, h7, h8, h9, h10⟩ := hl
    rw [handler, if_neg h9, if_neg h10, if_neg h2, if_neg h1, if_neg h3, if_neg h4, if_neg h5,
      if_neg h6, if_neg h7, if_neg h8, if_neg hu]

theorem ofNat_asInt {u : UInt32} (h : 0 ≤ asInt u) : UInt32.ofNat (asInt u).toNat = u := by
  have hlt := u.toNat_lt
  have hu : (asInt u).toNat = u.toNat := by
    unfold asInt at h ⊢
    split at h <;> omega
  rw [hu, UInt32.ofNat_toNat]

theorem mem_append {cs : List Command} (h : List Command) (hc : ∀ c ∈ cs, c.loads = false) :
    m.mem (h ++ cs) = m.mem h := by
  induction cs generalizing h with
  | nil => rw [List.append_nil]
  | cons c cs ih =>
    rw [List.append_cons, ih _ fun c' hc' => hc c' (List.mem_cons_of_mem _ hc')]
    exact m.mem_runs h c (hc c List.mem_cons_self)

def Extends (s t : FlashState) : Prop := s.history <+: t.history ∧ s.handled <+: t.handled

theorem Extends.refl (s : FlashState) : Extends s s := ⟨List.prefix_rfl, List.prefix_rfl⟩

theorem Extends.trans (h : Extends s t) (h' : Extends t u) : Extends s u :=
  ⟨h.1.trans h'.1, h.2.trans h'.2⟩

theorem pass_error {act : Cmd Int} {s : FlashState} (h : (act s.history).1 < 0) :
    pass s (some act) =
      .ret (0, ⟨s.img, (act s.history).2,
        s.handled ++ [⟨s.img, (act s.history).1, s.history, (act s.history).2⟩]⟩) :=
  if_pos h

theorem pass_next {act : Cmd Int} {s : FlashState} (h : ¬(act s.history).1 < 0) :
    pass s (some act) = .next ⟨s.img + (hdrSize + UInt32.ofNat (act s.history).1.toNat),
      (act s.history).2, s.handled ++ [⟨s.img, (act s.history).1, s.history, (act s.history).2⟩]⟩ :=
  if_neg h

theorem flashStep_extends (m : Machine) (s : FlashState) :
    Extends s (state (m.flashStep s)) := by
  unfold flashStep
  cases hh : m.handler (m.hdrTrans s.history s.img) (s.img + hdrSize) with
  | none => exact .refl s
  | some act =>
    obtain ⟨-, cs, hcs, -⟩ := issues_handler hh s.history
    have hgrow : s.history <+: (act s.history).2 := hcs ▸ List.prefix_append _ _
    by_cases hr : (act s.history).1 < 0
    · rw [pass_error hr]
      exact ⟨hgrow, List.prefix_append _ _⟩
    · rw [pass_next hr]
      exact ⟨hgrow, List.prefix_append _ _⟩

theorem run_extends (m : Machine) (n : Nat) (s : FlashState) :
    Extends s (state (Loop.run m.flashStep n s)) := by
  induction n generalizing s with
  | zero => exact .refl s
  | succ n ih =>
    have hstep := flashStep_extends m s
    cases hs : m.flashStep s with
    | next t =>
      rw [hs] at hstep
      rw [Loop.run_succ_next hs]
      exact hstep.trans (ih t)
    | ret r =>
      rw [hs] at hstep
      rw [Loop.run_succ_exit hs rfl]
      exact hstep
    | halt e => exact e.elim

theorem run_extends_le (m : Machine) (s : FlashState) (h : n ≤ k) :
    Extends (state (Loop.run m.flashStep n s)) (state (Loop.run m.flashStep k s)) := by
  obtain ⟨j, rfl⟩ := Nat.exists_eq_add_of_le h
  cases hn : Loop.run m.flashStep n s with
  | next t =>
    rw [Loop.run_add hn]
    exact run_extends m j t
  | ret r =>
    rw [Loop.run_mono hn rfl (Nat.le_add_right n j)]
    exact .refl _
  | halt e => exact e.elim

-- ---------------------------------------------------------------------------
-- The records of the image
-- ---------------------------------------------------------------------------

theorem hdrTrans_eq {h : List Command} (hm : m.mem h = x.mem) (o : UInt32) :
    m.hdrTrans h (x.img + o) = ⟨x.key o, x.imgSz o⟩ := by
  rw [hdrTrans, hm]
  rfl

/-- The pass over a record, as long as memory is what the check has seen. -/
theorem flashStep_record {h : List Command} {o : UInt32} (hm : m.mem h = x.mem)
    (hl : x.Listed o) (hd : List Handled) :
    ∃ act, m.handler ⟨x.key o, x.imgSz o⟩ (x.img + o + hdrSize) = some act ∧
      m.Does act (0 ≤ ·) (m.Served (x.img + o + hdrSize) (x.imgSz o) (m.jobs (x.key o))) ∧
      m.mem (act h).2 = x.mem ∧
      ((act h).1 < 0 → m.flashStep ⟨x.img + o, h, hd⟩ =
        .ret (0, ⟨x.img + o, (act h).2, hd ++ [⟨x.img + o, (act h).1, h, (act h).2⟩]⟩)) ∧
      (¬(act h).1 < 0 → m.flashStep ⟨x.img + o, h, hd⟩ =
        .next ⟨x.img + x.after o, (act h).2,
          hd ++ [⟨x.img + o, (act h).1, h, (act h).2⟩]⟩) := by
  have hkey : (Hdr.mk (x.key o) (x.imgSz o)).key ∈ vmimgKeyList := hl
  obtain ⟨act, ha, hi⟩ := handler_listed (m := m) hkey (x.img + o + hdrSize)
  obtain ⟨act', ha', hdoes⟩ := handler_does (m := m) hkey (x.img + o + hdrSize)
  cases ha.symm.trans ha'
  obtain ⟨hr, cs, hcs, hp⟩ := hi h
  refine ⟨act, ha, hdoes, ?_, fun hneg => ?_, fun hpos => ?_⟩
  · rw [hcs, mem_append h fun c hc => (hp c hc).1, hm]
  · rw [flashStep, hdrTrans_eq hm, ha, pass_error hneg]
  · have hsz : UInt32.ofNat (act h).1.toNat = x.imgSz o := by
      rcases hr with hr | hr
      · omega
      · rw [hr] at hpos ⊢
        exact ofNat_asInt (by omega)
    rw [flashStep, hdrTrans_eq hm, ha, pass_next hpos, hsz, UInt32.add_comm hdrSize,
      UInt32.add_assoc, ← Buffer.after]

/-- What the loop has done when it is behind the image: the records in their order, all of them
without an error exactly if their jobs are done. -/
structure Flashed (m : Machine) (x : Buffer) (rs : List UInt32) (h h' : List Command)
    (new : List Handled) : Prop where
  mem : m.mem h' = x.mem
  places : new.map Handled.place = rs.map (x.img + ·)
  fine : (∀ p ∈ new, m.Fine p) ↔ m.RecordsServed x rs h h'

theorem fine_iff {act : Cmd Int} {D : List Command → List Command → Prop}
    (hdoes : m.Does act (0 ≤ ·) D) {h : List Command} {a : UInt32} (hpos : 0 ≤ (act h).1) :
    m.Fine ⟨a, (act h).1, h, (act h).2⟩ ↔ ∃ cs, D h cs := by
  constructor
  · rintro ⟨-, cs, hcs, hsucc⟩
    exact ⟨cs, (hdoes.iff h cs).mp ⟨hcs, hpos, hsucc⟩⟩
  · rintro ⟨cs, hD⟩
    obtain ⟨hcs, -, hsucc⟩ := (hdoes.iff h cs).mpr hD
    exact ⟨hpos, cs, hcs, hsucc⟩

/-- When all records are written, the loop is behind the image. -/
theorem flashRecords_some (hw : x.Walk o rs e) (hm : m.mem h = x.mem)
    (hf : m.flashRecords x rs h = some h') (hd : List Handled) :
    ∃ new, Loop.run m.flashStep rs.length ⟨x.img + o, h, hd⟩ =
        .next ⟨x.img + e, h', hd ++ new⟩ ∧ m.Flashed x rs h h' new := by
  induction hw generalizing h hd with
  | done =>
    cases hf
    exact ⟨[], by rw [List.append_nil]; rfl, hm, rfl, by simp [RecordsServed]⟩
  | @record o rs e inside listed aligned rest ih =>
    obtain ⟨act, ha, hdoes, hm', -, hnext⟩ := flashStep_record hm listed hd
    rw [flashRecords, ha, written] at hf
    split at hf
    · cases hf
    · next hpos =>
      obtain ⟨new, hrun, hnew⟩ := ih hm' hf (hd ++ [⟨x.img + o, (act h).1, h, (act h).2⟩])
      refine ⟨⟨x.img + o, (act h).1, h, (act h).2⟩ :: new, ?_, hnew.mem, ?_, ?_⟩
      · rw [List.length_cons, Loop.run_succ_next (hnext hpos), hrun, List.append_assoc]
        rfl
      · rw [List.map_cons, List.map_cons, hnew.places]
      · rw [List.forall_mem_cons, fine_iff hdoes (Int.not_lt.mp hpos), hnew.fine, RecordsServed]
        -- the jobs are done with the command lines that were run
        have hsame : ∀ cs, m.Served (x.img + o + hdrSize) (x.imgSz o) (m.jobs (x.key o)) h cs →
            (act h).2 = h ++ cs := fun cs hs => ((hdoes.iff h cs).mpr hs).1
        constructor
        · rintro ⟨⟨cs, hs⟩, hrest⟩
          exact ⟨cs, hs, hsame cs hs ▸ hrest⟩
        · rintro ⟨cs, hs, hrest⟩
          exact ⟨⟨cs, hs⟩, hsame cs hs ▸ hrest⟩

/-- When one is not, the command ends there, and returns 0. -/
theorem flashRecords_none (hw : x.Walk o rs e) (hm : m.mem h = x.mem)
    (hf : m.flashRecords x rs h = none) (hd : List Handled) :
    ∃ s, Loop.Leads m.flashStep ⟨x.img + o, h, hd⟩ (.ret (0, s)) ∧
      ∃ o' ∈ rs, ∃ p ∈ s.handled, p.place = x.img + o' ∧ p.ret < 0 := by
  induction hw generalizing h hd with
  | done => cases hf
  | @record o rs e inside listed aligned rest ih =>
    obtain ⟨act, ha, -, hm', hret, hnext⟩ := flashStep_record hm listed hd
    rw [flashRecords, ha, written] at hf
    split at hf
    · next hneg =>
      exact ⟨_, .one (hret hneg), o, List.mem_cons_self, _,
        List.mem_append_right _ (List.mem_singleton_self _), rfl, hneg⟩
    · next hpos =>
      obtain ⟨s, hl, o', ho', hr⟩ := ih hm' hf (hd ++ [⟨x.img + o, (act h).1, h, (act h).2⟩])
      exact ⟨s, .head (hnext hpos) hl, o', List.mem_cons_of_mem _ ho', hr⟩

/-- Records whose jobs are done are written. -/
theorem RecordsServed.flashRecords (hw : x.Walk o rs e) (hm : m.mem h = x.mem)
    (hs : m.RecordsServed x rs h h') : m.flashRecords x rs h = some h' := by
  induction hw generalizing h with
  | done => exact congrArg some hs.symm
  | @record o rs e inside listed aligned rest ih =>
    obtain ⟨cs, hserved, hrest⟩ := hs
    obtain ⟨act, ha, hdoes, hm', -⟩ := flashStep_record hm listed []
    obtain ⟨hcs, hpos, -⟩ := (hdoes.iff h cs).mpr hserved
    rw [Machine.flashRecords, ha, written, if_neg (Int.not_lt.mpr hpos)]
    rw [hcs] at hm' ⊢
    exact ih hm' hrest

/-- What is passed to flash for the records. -/
theorem RecordsServed.sources (hs : m.RecordsServed x rs h h') :
    ∃ cs, h' = h ++ cs ∧
      (∀ c ∈ cs, ∀ s ∈ c.sources, ∃ o ∈ rs, ∃ j ∈ m.jobs (x.key o),
        (m.flashes (x.imgSz o) j).map (x.img + o + hdrSize, ·) = some s) ∧
      ∀ o ∈ rs, ∀ j ∈ m.jobs (x.key o), ∀ s,
        (m.flashes (x.imgSz o) j).map (x.img + o + hdrSize, ·) = some s →
          ∃ c ∈ cs, s ∈ c.sources := by
  induction rs generalizing h with
  | nil => exact ⟨[], by rw [List.append_nil]; exact hs, by simp, by simp⟩
  | cons o rs ih =>
    obtain ⟨cs, hserved, hrest⟩ := hs
    obtain ⟨cs', rfl, hin', hall'⟩ := ih hrest
    obtain ⟨hin, hall⟩ := hserved.sources
    refine ⟨cs ++ cs', List.append_assoc _ _ _, fun c hc s hsrc => ?_, fun o' ho' j hj s he => ?_⟩
    · rcases List.mem_append.mp hc with hc | hc
      · exact ⟨o, List.mem_cons_self, hin c hc s hsrc⟩
      · obtain ⟨o', ho', hj⟩ := hin' c hc s hsrc
        exact ⟨o', List.mem_cons_of_mem _ ho', hj⟩
    · rcases List.mem_cons.mp ho' with rfl | ho'
      · obtain ⟨c, hc, hsrc⟩ := hall j hj s he
        exact ⟨c, List.mem_append_left _ hc, hsrc⟩
      · obtain ⟨c, hc, hsrc⟩ := hall' o' ho' j hj s he
        exact ⟨c, List.mem_append_right _ hc, hsrc⟩

end Machine

namespace Accepted

open Machine

variable (a : Accepted)

def start : FlashState := a.flashStart a.image.img

/-- The command writes the image and nothing else: the ranges passed to flash lie in the image,
the records handled are those of the image, each once and in order, and the command returns 0
only if all of them were handled without an error. -/
structure Faithful : Prop where
  inside : ∀ s, a.Reached a.start s → Confined a.image s
  inOrder : ∀ rs e, a.image.Walk 0 rs e → ∀ s, a.Reached a.start s →
    s.handled.map Handled.place <+: rs.map (a.image.img + ·)
  once : ∀ s, a.Reached a.start s → (s.handled.map Handled.place).Nodup
  complete : ∀ rs e, a.image.Walk 0 rs e →
    ∃ s, a.Reached a.start s ∧ s.handled.map Handled.place = rs.map (a.image.img + ·)
  reports : ∀ rs e, a.image.Walk 0 rs e → ∀ s, Loop.Leads a.flashStep a.start (.ret (0, s)) →
    ∀ o ∈ rs, (∃ p ∈ s.handled, p.place = a.image.img + o) ∧
      ∀ p ∈ s.handled, p.place = a.image.img + o → a.Fine p

/-- The variables and results of the commands let the jobs of all records be done, the records
that are written end in the image, and the word behind the image is no key. -/
def Clean : Prop :=
  ∃ rs e h, a.image.Walk 0 rs e ∧ a.RecordsServed a.image rs a.start.history h ∧
    a.Fits a.image rs ∧ a.Unknown (a.image.key e)

variable {a}

theorem mem_start : a.mem a.start.history = a.image.mem := by
  unfold start flashStart
  split
  · exact (a.mem_runs [] .sfProbe rfl).trans a.mem_nil
  · exact a.mem_nil

theorem start_sources : ∀ c ∈ a.start.history, c.sources = [] := by
  unfold start flashStart
  split
  · simp [Command.sources]
  · simp

theorem walk : ∃ rs e, a.image.Walk 0 rs e := by
  obtain ⟨reads, hc⟩ := a.accepted
  exact hc.walk

theorem start_eq : a.start = ⟨a.image.img + 0, a.start.history, []⟩ := by
  rw [UInt32.add_zero]
  rfl

/-- A command that reports failures has written all records. -/
theorem Faithful.written (h : a.Faithful) (hw : a.image.Walk 0 rs e) :
    ∃ h', a.flashRecords a.image rs a.start.history = some h' := by
  cases hf : a.flashRecords a.image rs a.start.history with
  | some h' => exact ⟨h', rfl⟩
  | none =>
    obtain ⟨s, hl, o, ho, p, hp, hplace, hneg⟩ := flashRecords_none hw mem_start hf []
    rw [← start_eq] at hl
    exact absurd ((h.reports rs e hw s hl o ho).2 p hp hplace).1 (Int.not_le.mpr hneg)

/-- The loop behind the image. -/
theorem run_records (hw : a.image.Walk 0 rs e)
    (hf : a.flashRecords a.image rs a.start.history = some h) :
    ∃ new, Loop.run a.flashStep rs.length a.start = .next ⟨a.image.img + e, h, new⟩ ∧
      a.Flashed a.image rs a.start.history h new := by
  obtain ⟨new, hrun, hnew⟩ := flashRecords_some hw mem_start hf []
  rw [← start_eq] at hrun
  exact ⟨new, hrun, hnew⟩

/-- A header handled behind the image is none of its records. -/
theorem Faithful.unknown (h : a.Faithful) (hw : a.image.Walk 0 rs e)
    (hrun : Loop.run a.flashStep rs.length a.start = .next ⟨a.image.img + e, h', new⟩)
    (hnew : a.Flashed a.image rs a.start.history h' new) : a.Unknown (a.image.key e) := by
  by_contra hknown
  have hsome : a.handler (a.hdrTrans h' (a.image.img + e)) (a.image.img + e + hdrSize) ≠ none := by
    rw [hdrTrans_eq hnew.mem]
    exact mt handler_eq_none.mp hknown
  obtain ⟨act, ha⟩ := Option.ne_none_iff_exists'.mp hsome
  have hstep : ∃ t p, state (a.flashStep ⟨a.image.img + e, h', new⟩) = t ∧
      t.handled = new ++ [p] := by
    rw [flashStep, ha]
    by_cases hneg : (act h').1 < 0
    · rw [pass_error hneg]
      exact ⟨_, _, rfl, rfl⟩
    · rw [pass_next hneg]
      exact ⟨_, _, rfl, rfl⟩
  obtain ⟨t, p, ht, hhandled⟩ := hstep
  have hreached : a.Reached a.start t := by
    refine ⟨rs.length + 1, ?_⟩
    rw [Loop.run_add hrun, ← ht]
    cases hs : a.flashStep ⟨a.image.img + e, h', new⟩ with
    | next u => rw [Loop.run_succ_next hs, Loop.run_zero]
    | ret r => rw [Loop.run_succ_exit hs rfl]
    | halt e => exact e.elim
  have hlen := (h.inOrder rs e hw t hreached).length_le
  have hnewlen := congrArg List.length hnew.places
  rw [List.length_map, List.length_map] at hlen hnewlen
  rw [hhandled, List.length_append, List.length_singleton] at hlen
  omega

/-- The loop ends behind the image if the key there is unknown. -/
theorem run_end {n : Nat}
    (hrun : Loop.run a.flashStep n a.start = .next ⟨a.image.img + e, h, new⟩)
    (hm : a.mem h = a.image.mem) (hu : a.Unknown (a.image.key e)) :
    Loop.run a.flashStep (n + 1) a.start = .ret (0, ⟨a.image.img + e, h, new⟩) := by
  rw [Loop.run_add hrun]
  refine Loop.run_succ_exit ?_ rfl
  rw [flashStep, hdrTrans_eq hm, handler_eq_none.mpr hu]
  rfl

theorem Faithful.clean (h : a.Faithful) : a.Clean := by
  obtain ⟨rs, e, hw⟩ := walk (a := a)
  obtain ⟨h', hf⟩ := h.written hw
  obtain ⟨new, hrun, hnew⟩ := run_records hw hf
  have hu := h.unknown hw hrun hnew
  have hserved : a.RecordsServed a.image rs a.start.history h' := by
    refine hnew.fine.mp fun p hp => ?_
    have hplace : p.place ∈ rs.map (a.image.img + ·) := by
      rw [← hnew.places]
      exact List.mem_map_of_mem hp
    obtain ⟨o, ho, he⟩ := List.mem_map.mp hplace
    exact (h.reports rs e hw _ ⟨_, run_end hrun hnew.mem hu⟩ o ho).2 p hp he.symm
  refine ⟨rs, e, h', hw, hserved, fun o ho j hj len hlen => ?_, hu⟩
  obtain ⟨cs, rfl, -, hall⟩ := hserved.sources
  obtain ⟨c, hc, hsrc⟩ := hall o ho j hj (a.image.img + o + hdrSize, len) (by rw [hlen]; rfl)
  have hconf := h.inside _ ⟨rs.length, rfl⟩
  rw [hrun] at hconf
  exact hconf c (List.mem_append_right _ hc) _ hsrc

/-- All that is ever reached comes before the end. -/
theorem reached_extends {t : FlashState}
    (hend : Loop.run a.flashStep n a.start = .ret (0, t)) (hr : a.Reached a.start s) :
    Extends s t := by
  obtain ⟨k, rfl⟩ := hr
  have hmono := run_extends_le a.toMachine a.start (Nat.le_add_left k n)
  rwa [Loop.run_mono hend rfl (Nat.le_add_right n k)] at hmono

theorem Clean.faithful (h : a.Clean) : a.Faithful := by
  obtain ⟨rs, e, h', hw, hserved, hfits, hu⟩ := h
  obtain ⟨new, hrun, hnew⟩ := run_records hw (hserved.flashRecords hw mem_start)
  have hend := run_end hrun hnew.mem hu
  have hplaces : ∀ s, a.Reached a.start s →
      s.handled.map Handled.place <+: rs.map (a.image.img + ·) := by
    intro s hs
    rw [← hnew.places]
    exact (reached_extends hend hs).2.map Handled.place
  refine ⟨fun s hs c hc r hr => ?_, fun rs' e' hw' s hs => ?_, fun s hs => ?_,
    fun rs' e' hw' => ?_, fun rs' e' hw' s hs o ho => ?_⟩
  · have hmem : c ∈ h' := (reached_extends hend hs).1.subset hc
    obtain ⟨cs, rfl, hin, -⟩ := hserved.sources
    rcases List.mem_append.mp hmem with hmem | hmem
    · rw [start_sources c hmem] at hr
      cases hr
    · obtain ⟨o, ho, j, hj, he⟩ := hin c hmem r hr
      obtain ⟨len, hlen, rfl⟩ := Option.map_eq_some_iff.mp he
      exact hfits o ho j hj len hlen
  · obtain ⟨rfl, rfl⟩ := hw.unique hw'
    exact hplaces s hs
  · have hinj : (rs.map (a.image.img + ·)).Nodup :=
      hw.nodup.map fun o o' h => (UInt32.add_right_inj _).mp h
    exact (hplaces s hs).sublist.nodup hinj
  · obtain ⟨rfl, rfl⟩ := hw.unique hw'
    refine ⟨_, ⟨rs.length, rfl⟩, ?_⟩
    rw [hrun]
    exact hnew.places
  · obtain ⟨rfl, rfl⟩ := hw.unique hw'
    cases Loop.Leads.unique ⟨_, hend⟩ hs rfl rfl
    have hmem : a.image.img + o ∈ new.map Handled.place := by
      rw [hnew.places]
      exact List.mem_map_of_mem ho
    obtain ⟨p, hp, hpo⟩ := List.mem_map.mp hmem
    exact ⟨⟨p, hp, hpo⟩, fun q hq _ => hnew.fine.mpr hserved q hq⟩

end Accepted

def leftover : Buffer where
  mem a :=
    if a = 0 then 0xCF else if a = 1 then 0x01 else if a = 3 then 0x02
    else if a = 64 then 0xa0 else if a = 66 then 0x02 else if a = 67 then 0x03
    else if a = 75 then 4 else 0
  img := 0
  size := 64

theorem leftover_accepted : ∃ reads, leftover.CheckVmImg 1 reads := by
  have hsize : ¬leftover.size < hdrSize := by decide
  have hlt : (0 : UInt32) < leftover.size := by decide
  have hlisted : leftover.Listed 0 := by decide +kernel
  have hsz : leftover.imgSz 0 % 4 = 0 := by decide +kernel
  have hafter : leftover.after 0 = 64 := by decide +kernel
  refine ⟨[0, 8], ?_⟩
  rw [Buffer.CheckVmImg, if_neg hsize]
  refine .head (Buffer.checkStep_record hlt hlisted hsz) (.one ?_)
  rw [hafter]
  exact Buffer.checkStep_end (by decide)

theorem leftover_mem_runs (h : List Command) (c : Command) (_ : c.loads = false) :
    (fun _ => leftover.mem : List Command → UInt32 → UInt8) (h ++ [c]) =
      (fun _ => leftover.mem) h := rfl

theorem leftover_plain (src len : UInt32) :
    ∀ c ∈ (fun _ _ => [] : UInt32 → UInt32 → List Command) src len,
      c.loads = false ∧ c.sources = [] := fun _ hc => nomatch hc

theorem leftover_mem_nil :
    (fun _ => leftover.mem : List Command → UInt32 → UInt8) [] = leftover.mem := rfl

def withLeftover : Accepted where
  env _ _ := none
  result _ _ := 0
  oneUbi := true
  snof := false
  envRedund := false
  rawBoot := false
  nandPageSize := 2048
  mem _ := leftover.mem
  mem_runs := leftover_mem_runs
  volumeModify _ _ := []
  volumeModify_plain := leftover_plain
  image := leftover
  mem_nil := leftover_mem_nil
  accepted := leftover_accepted

end BismarckPreloader.Vmimg
