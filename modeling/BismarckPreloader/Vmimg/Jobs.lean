import BismarckPreloader.Vmimg.Flash

/-!
# What a record asks for

A record is handled without an error if everything it stands for was done: the variables of its
partitions exist and are large enough, and every command line succeeded. Most of the functions of
`cmd_upvmimg.c` drop the results of `run_command`, so what they return does not say that.

`Job` is the list of things a key stands for and `Job.Done` when one of them is done, in terms of
the environment and the results of the commands. `handler_does` connects the two: the function for
a key runs exactly these command lines, with success, when its jobs are done.
-/

namespace BismarckPreloader.Upgrade

section Apply

variable {α β : Type} (h : List Command)

@[simp] theorem Cmd.done_apply (a : α) : Cmd.done a h = (a, h) := rfl

@[simp] theorem Cmd.andThen_apply (A : Cmd α) (f : α → Cmd β) :
    A.andThen f h = f (A h).1 (A h).2 := rfl

@[simp] theorem World.envGet_apply (w : World) (name : String) :
    w.envGet name h = (w.env h name, h) := rfl

@[simp] theorem World.runCommand_apply (w : World) (c : Command) :
    w.runCommand c h = (w.result h c, h ++ [c]) := rfl

end Apply

/-- The result of a command line is an error. A part that cannot be updated by its name is tried
by its address, and an empty command line writes nothing. -/
def Command.Fails (r : Int) : Command → Prop
  | .updatePart _ _ _ => False
  | .empty => True
  | _ => r ≠ 0

namespace World

variable (w : World)

/-- The command lines are run after the history, and none of them fails. -/
def Succeed : List Command → List Command → Prop
  | _, [] => True
  | h, c :: cs => ¬c.Fails (w.result h c) ∧ Succeed (h ++ [c]) cs

variable {w} {h cs cs' : List Command}

theorem succeed_append :
    w.Succeed h (cs ++ cs') ↔ w.Succeed h cs ∧ w.Succeed (h ++ cs) cs' := by
  induction cs generalizing h with
  | nil => simp [Succeed]
  | cons c cs ih => simp [Succeed, ih, and_assoc]

theorem succeed_single {c : Command} : w.Succeed h [c] ↔ ¬c.Fails (w.result h c) :=
  and_iff_left trivial

variable (w)

/-- The code only adds to the history, and it is done in the sense of `D`, with the command lines
`cs`, exactly if it runs these, none fails and the result is a good one. -/
structure Does (A : Cmd Int) (good : Int → Prop) (D : List Command → List Command → Prop) :
    Prop where
  grows : ∀ h, ∃ cs, (A h).2 = h ++ cs
  iff : ∀ h cs, ((A h).2 = h ++ cs ∧ good (A h).1 ∧ w.Succeed h cs) ↔ D h cs

/-- One after the other. -/
def Seq (D D' : List Command → List Command → Prop) (h cs : List Command) : Prop :=
  ∃ cs₁ cs₂, cs = cs₁ ++ cs₂ ∧ D h cs₁ ∧ D' (h ++ cs₁) cs₂

variable {w} {A K : Cmd Int} {good good' : Int → Prop}
  {D D' : List Command → List Command → Prop}

theorem grows_of_issues {P : Command → Prop} {Q : Int → Prop} (hA : Cmd.Issues P Q A)
    (h : List Command) : ∃ cs, (A h).2 = h ++ cs := by
  obtain ⟨-, cs, hcs, -⟩ := hA h
  exact ⟨cs, hcs⟩

/-- The rule for a sequence: after a good result it goes on with `K`, after another one it
returns one that is not good. -/
theorem Does.andThen {f : Int → Cmd Int} (hA : w.Does A good D) (hK : w.Does K good' D')
    (hgood : ∀ r, good r → f r = K)
    (hbad : ∀ r, ¬good r → ∃ r', f r = .done r' ∧ ¬good' r') :
    w.Does (A.andThen f) good' (Seq D D') := by
  refine ⟨fun h => ?_, fun h cs => ?_⟩
  · obtain ⟨cs, hcs⟩ := hA.grows h
    rw [Cmd.andThen, hcs]
    by_cases hg : good (A h).1
    · obtain ⟨cs', hcs'⟩ := hK.grows (h ++ cs)
      exact ⟨cs ++ cs', by rw [hgood _ hg, hcs', List.append_assoc]⟩
    · obtain ⟨r', hr', -⟩ := hbad _ hg
      exact ⟨cs, by rw [hr']; rfl⟩
  · obtain ⟨cs₁, hcs₁⟩ := hA.grows h
    rw [Cmd.andThen, hcs₁]
    by_cases hg : good (A h).1
    · rw [hgood _ hg]
      constructor
      · rintro ⟨hrun, hres, hsucc⟩
        obtain ⟨cs₂, hcs₂⟩ := hK.grows (h ++ cs₁)
        rw [hcs₂, List.append_assoc] at hrun
        obtain rfl := (List.append_cancel_left hrun).symm
        rw [succeed_append] at hsucc
        exact ⟨cs₁, cs₂, rfl, (hA.iff h cs₁).mp ⟨hcs₁, hg, hsucc.1⟩,
          (hK.iff _ cs₂).mp ⟨hcs₂, hres, hsucc.2⟩⟩
      · rintro ⟨cs₁', cs₂, rfl, hD, hD'⟩
        obtain ⟨hrun, -, hsucc⟩ := (hA.iff h cs₁').mpr hD
        obtain rfl := List.append_cancel_left (hcs₁.symm.trans hrun)
        obtain ⟨hrun', hres', hsucc'⟩ := (hK.iff _ cs₂).mpr hD'
        exact ⟨by rw [hrun', List.append_assoc], hres', succeed_append.mpr ⟨hsucc, hsucc'⟩⟩
    · obtain ⟨r', hr', hno⟩ := hbad _ hg
      rw [hr']
      refine iff_of_false (fun hrun => hno hrun.2.1) ?_
      rintro ⟨cs₁', cs₂, -, hD, -⟩
      exact hg ((hA.iff h cs₁').mpr hD).2.1

/-- `if (A) goto error;` -/
theorem Does.check (hA : w.Does A (· = 0) D) (hK : w.Does K (0 ≤ ·) D') :
    w.Does (.check A K) (0 ≤ ·) (Seq D D') :=
  hA.andThen hK (fun _ hr => if_neg (not_not.mpr hr)) fun _ hr => ⟨-1, if_pos hr, by decide⟩

/-- Without a look at the result. -/
theorem Does.ignore (hA : w.Does A (fun _ => True) D) (hK : w.Does K good' D') :
    w.Does (A.andThen fun _ => K) good' (Seq D D') :=
  hA.andThen hK (fun _ _ => rfl) fun _ hr => absurd trivial hr

end World

end BismarckPreloader.Upgrade

namespace BismarckPreloader.Vmimg

open Upgrade

/-- What there is to do for a record. -/
inductive Job where
  | part (addr size : String)
  | named (part addr size : String)
  | vol (vol : String)
  | cleanPart (addr size : String)
  | cleanVol (vol : String)
  | boot
  | resize

namespace Machine

variable (m : Machine)

/-- The partition that two variables describe can take `len` bytes, and is written. -/
def Updated (addr size : String) (src len : UInt32) (h cs : List Command) : Prop :=
  ∃ base sz, m.env h addr = some base ∧ m.env h size = some sz ∧ simpleStrtoul sz 16 ≠ 0 ∧
    len ≤ simpleStrtoul sz 16 ∧
    cs = [.update (simpleStrtoul base 16) (simpleStrtoul sz 16) src len] ∧ m.Succeed h cs

/-- With the command lines `cs` after the history `h` the job is done. -/
def Done (src len : UInt32) : Job → List Command → List Command → Prop
  | .part addr size => m.Updated addr size src len
  | .named part addr size => fun h cs =>
    if m.result h (.updatePart part src len) = 0 then cs = [.updatePart part src len]
    else ∃ cs', cs = .updatePart part src len :: cs' ∧
      m.Updated addr size src len (h ++ [.updatePart part src len]) cs'
  | .vol vol => fun h cs => cs = [.setVol vol, .checkVol, .ubiWrite src vol len] ∧ m.Succeed h cs
  | .cleanPart addr size => fun h cs =>
    ∃ base sz, m.env h addr = some base ∧ m.env h size = some sz ∧ simpleStrtoul sz 16 ≠ 0 ∧
      cs = [.erase (simpleStrtoul base 16) (simpleStrtoul sz 16)] ∧ m.Succeed h cs
  | .cleanVol vol => fun h cs => cs = [.setVol vol, .checkVol, .ubiClean vol] ∧ m.Succeed h cs
  | .boot => fun h cs =>
    ∃ value, m.env h "fl_boot_sz" = some value ∧ len ≤ m.partSzRaw (simpleStrtoul value 16) ∧
      cs = [m.bootCommand (simpleStrtoul value 16) src len] ∧ m.Succeed h cs
  | .resize => fun h cs => cs = m.volumeModify src len ∧ m.Succeed h cs

def dual (vols : String × String) (parts : (String × String) × String × String) : List Job :=
  if m.oneUbi then [.vol vols.1, .vol vols.2]
  else [.part parts.1.1 parts.1.2, .part parts.2.1 parts.2.2]

/-- What a key stands for. -/
def jobs (key : UInt32) : List Job :=
  if key = vmimgBootenvKey then
    .named "env" "fl_bootenv1" "fl_bootenv1_sz" ::
      if m.envRedund then [.named "env2" "fl_bootenv2" "fl_bootenv2_sz"] else []
  else if key = vmimgVolumeKey then [.resize]
  else if key = vmimgDtbKey then
    m.dual ("ubi_DTB0", "ubi_DTB1") (("fl_fdt1", "fl_fdt1_sz"), "fl_fdt2", "fl_fdt2_sz")
  else if key = vmimgBootKey then [.boot]
  else if key = vmimgKernelKey then
    m.dual ("ubi_k0", "ubi_k1")
      (("fl_kernel1", "fl_kernel1_sz"), "fl_kernel2", "fl_kernel2_sz")
  else if key = vmimgRootfsKey then
    m.dual ("ubi_r0", "ubi_r1")
      (("fl_rootfs1", "fl_rootfs1_sz"), "fl_rootfs2", "fl_rootfs2_sz")
  else if key = vmimgConfigKey then []
  else if key = vmimgCfgprovKey then []
  else if key = vmimgApplicationKey then
    if m.oneUbi then [.vol "ubi_framework1", .vol "ubi_framework2", .cleanVol "ubi_apps"]
    else [.part "fl_framework1" "fl_framework1_sz", .part "fl_framework2" "fl_framework2_sz",
      .cleanPart "fl_apps" "fl_apps_sz"]
  else if key = vmimgOsgiKey then
    if m.oneUbi then [.vol "ubi_osgi"] else [.part "fl_osgi" "fl_osgi_sz"]
  else []

/-- All jobs are done, one after the other, and the size that is returned then is not
negative. -/
def Served (src len : UInt32) : List Job → List Command → List Command → Prop
  | [] => fun _ cs => cs = [] ∧ 0 ≤ asInt len
  | j :: js => World.Seq (m.Done src len j) (Served src len js)

-- ---------------------------------------------------------------------------
-- The functions do their jobs
-- ---------------------------------------------------------------------------

variable {m} {hdr : Hdr} {src len : UInt32}

theorem does_update (addr size : String) :
    m.Does (m.doFlashUpdate addr size src len) (· = 0) (m.Updated addr size src len) := by
  refine ⟨World.grows_of_issues (World.issues_doFlashUpdate (P := fun _ => True)
    fun _ _ => trivial), fun h cs => ?_⟩
  rw [Updated, World.doFlashUpdate, Cmd.andThen_apply, World.envGet_apply]
  cases m.env h addr with
  | none => simp
  | some base =>
    dsimp only
    rw [Cmd.andThen_apply, World.envGet_apply]
    cases m.env h size with
    | none => simp
    | some sz =>
      dsimp only
      by_cases h0 : simpleStrtoul sz 16 = 0
      · simp [h0]
      · by_cases hlt : simpleStrtoul sz 16 < len
        · simp [h0, hlt]
        · rw [if_neg h0, if_neg hlt]
          constructor
          · rintro ⟨hrun, -, hsucc⟩
            exact ⟨base, sz, rfl, rfl, h0, UInt32.not_lt.mp hlt,
              (List.append_cancel_left hrun).symm, hsucc⟩
          · rintro ⟨_, _, hb, hs, -, -, rfl, hsucc⟩
            cases hb
            cases hs
            exact ⟨rfl, rfl, hsucc⟩

theorem does_named (part addr size : String) :
    m.Does (.fallback (m.doFlashUpdatePart part src len) (m.doFlashUpdate addr size src len))
      (· = 0) (m.Done src len (.named part addr size)) := by
  have hup : m.Does (m.doFlashUpdate addr size src len) (· = 0) (m.Updated addr size src len) :=
    does_update addr size
  let byName : Command := .updatePart part src len
  have hbyName : ∀ h, m.doFlashUpdatePart part src len h = (m.result h byName, h ++ [byName]) :=
    fun _ => rfl
  refine ⟨fun h => ?_, fun h cs => ?_⟩
  · rw [Cmd.fallback, Cmd.andThen_apply, hbyName]
    split
    · obtain ⟨cs, hcs⟩ := hup.grows (h ++ [byName])
      exact ⟨byName :: cs, by rw [hcs, List.append_assoc]; rfl⟩
    · exact ⟨[byName], rfl⟩
  · rw [Cmd.fallback, Cmd.andThen_apply, hbyName]
    change _ ↔ if m.result h byName = 0 then cs = [byName] else ∃ cs', cs = byName :: cs' ∧
      m.Updated addr size src len (h ++ [byName]) cs'
    by_cases hr : m.result h byName = 0
    · rw [if_neg (not_not.mpr hr), if_pos hr]
      constructor
      · rintro ⟨hrun, -⟩
        exact (List.append_cancel_left hrun).symm
      · rintro rfl
        exact ⟨rfl, rfl, id, trivial⟩
    · rw [if_pos hr, if_neg hr]
      constructor
      · rintro ⟨hrun, hres, hsucc⟩
        obtain ⟨cs', hcs'⟩ := hup.grows (h ++ [byName])
        rw [hcs', List.append_assoc] at hrun
        obtain rfl := (List.append_cancel_left hrun).symm
        exact ⟨cs', rfl, (hup.iff _ cs').mp ⟨hcs', hres, hsucc.2⟩⟩
      · rintro ⟨cs', rfl, hd⟩
        obtain ⟨hrun, hres, hsucc⟩ := (hup.iff _ cs').mpr hd
        exact ⟨by rw [hrun, List.append_assoc]; rfl, hres, id, hsucc⟩

theorem doUbiCommand_apply (vol : String) (c : Command) (h : List Command) :
    m.doUbiCommand vol c h =
      if m.result (h ++ [.setVol vol]) .checkVol = -1 then (-1, h ++ [.setVol vol, .checkVol])
      else (if m.result (h ++ [.setVol vol, .checkVol]) c = -1 then -1 else 0,
        h ++ [.setVol vol, .checkVol, c]) := by
  simp only [doUbiCommand, Cmd.andThen_apply, World.runCommand_apply, List.append_assoc,
    List.cons_append, List.nil_append]
  split
  next hr => rw [Cmd.done_apply, hr]
  next =>
    simp only [Cmd.andThen_apply, World.runCommand_apply, List.append_assoc, List.cons_append,
      List.nil_append]
    split
    next hr => rw [Cmd.done_apply, hr]
    next => rfl

/-- A command for a volume: without a failure all three command lines are run and the result
is 0, so it does not matter whether it is looked at. -/
theorem does_ubiCommand (vol : String) (c : Command) {good : Int → Prop} (h0 : good 0)
    (hc : ∀ r, ¬c.Fails r → r = 0) :
    m.Does (m.doUbiCommand vol c) good
      (fun h cs => cs = [.setVol vol, .checkVol, c] ∧ m.Succeed h cs) := by
  refine ⟨fun h => ?_, fun h cs => ?_⟩
  · rw [doUbiCommand_apply]
    split
    · exact ⟨_, rfl⟩
    · exact ⟨_, rfl⟩
  · rw [doUbiCommand_apply]
    split
    next hcheck =>
      have hno : ∀ cs', m.Succeed h (.setVol vol :: .checkVol :: cs') → False :=
        fun _ hs => hs.2.1 (by rw [hcheck]; exact (by decide : (-1 : Int) ≠ 0))
      refine iff_of_false ?_ ?_
      · rintro ⟨hcs, -, hsucc⟩
        obtain rfl := List.append_cancel_left hcs
        exact hno _ hsucc
      · rintro ⟨rfl, hsucc⟩
        exact hno _ hsucc
    next =>
      constructor
      · rintro ⟨hcs, -, hsucc⟩
        exact ⟨(List.append_cancel_left hcs).symm, hsucc⟩
      · rintro ⟨rfl, hsucc⟩
        have hres : m.result (h ++ [.setVol vol, .checkVol]) c = 0 := by
          simpa using hc _ hsucc.2.2.1
        rw [hres, if_neg (by decide)]
        exact ⟨rfl, h0, hsucc⟩

theorem does_vol (vol : String) :
    m.Does (m.doUbiUpdate vol src len) (· = 0) (m.Done src len (.vol vol)) :=
  does_ubiCommand vol _ rfl fun _ hr => not_not.mp hr

theorem does_vol_unseen (vol : String) :
    m.Does (m.doUbiUpdate vol src len) (fun _ => True) (m.Done src len (.vol vol)) :=
  does_ubiCommand vol _ trivial fun _ hr => not_not.mp hr

theorem does_cleanVol (vol : String) :
    m.Does (m.doUbiClean vol) (· = 0) (m.Done src len (.cleanVol vol)) :=
  does_ubiCommand vol _ rfl fun _ hr => not_not.mp hr

theorem does_cleanPart (addr size : String) :
    m.Does (m.doFlashClean addr size) (· = 0) (m.Done src len (.cleanPart addr size)) := by
  have hissues : Cmd.Issues (FromImage src len) (fun _ => True) (m.doFlashClean addr size) :=
    issues_doFlashClean addr size
  refine ⟨World.grows_of_issues hissues, fun h cs => ?_⟩
  change _ ↔ ∃ base sz, m.env h addr = some base ∧ m.env h size = some sz ∧
    simpleStrtoul sz 16 ≠ 0 ∧ cs = [.erase (simpleStrtoul base 16) (simpleStrtoul sz 16)] ∧
      m.Succeed h cs
  rw [doFlashClean, Cmd.andThen_apply, World.envGet_apply]
  cases m.env h addr with
  | none => simp
  | some base =>
    dsimp only
    rw [Cmd.andThen_apply, World.envGet_apply]
    cases m.env h size with
    | none => simp
    | some sz =>
      dsimp only
      by_cases h0 : simpleStrtoul sz 16 = 0
      · simp [h0]
      · rw [if_neg h0]
        constructor
        · rintro ⟨hrun, -, hsucc⟩
          exact ⟨base, sz, rfl, rfl, h0, (List.append_cancel_left hrun).symm, hsucc⟩
        · rintro ⟨_, _, hb, hs, -, rfl, hsucc⟩
          cases hb
          cases hs
          exact ⟨rfl, rfl, hsucc⟩

theorem does_size : m.Does (.done (asInt len)) (0 ≤ ·) (m.Served src len []) := by
  refine ⟨fun h => ⟨[], (List.append_nil h).symm⟩, fun h cs => ?_⟩
  rw [Served]
  constructor
  · rintro ⟨hrun, hres, -⟩
    have : h ++ [] = h ++ cs := (List.append_nil h).trans hrun
    exact ⟨(List.append_cancel_left this).symm, hres⟩
  · rintro ⟨rfl, hres⟩
    exact ⟨(List.append_nil h).symm, hres, trivial⟩

theorem does_boot : m.Does (m.doBootImage hdr src) (0 ≤ ·) (m.Served src hdr.imgSz [.boot]) := by
  refine ⟨World.grows_of_issues issues_doBootImage, fun h cs => ?_⟩
  simp only [doBootImage, Cmd.andThen_apply, World.envGet_apply, Served, World.Seq, Done]
  cases m.env h "fl_boot_sz" with
  | none => simp
  | some value =>
    dsimp only
    by_cases hlt : m.partSzRaw (simpleStrtoul value 16) < hdr.imgSz
    · simp [hlt]
    · have hle := UInt32.not_lt.mp hlt
      rw [if_neg hlt]
      simp only [Cmd.andThen_apply, World.runCommand_apply, Cmd.done_apply]
      constructor
      · rintro ⟨hrun, hres, hsucc⟩
        obtain rfl := (List.append_cancel_left hrun).symm
        exact ⟨_, [], rfl, ⟨value, rfl, hle, rfl, hsucc⟩, rfl, hres⟩
      · rintro ⟨_, _, rfl, ⟨v, hv, -, rfl, hsucc⟩, rfl, hres⟩
        cases hv
        exact ⟨rfl, hres, by rwa [List.append_nil]⟩

theorem does_resize (h : hdr.key = vmimgVolumeKey) :
    m.Does (m.doVolumeImage hdr src) (0 ≤ ·) (m.Served src hdr.imgSz [.resize]) := by
  rw [doVolumeImage, if_neg (not_not.mpr h)]
  refine ⟨fun h => ⟨_, rfl⟩, fun h cs => ?_⟩
  simp only [Served, World.Seq, Done]
  constructor
  · rintro ⟨hrun, hres, hsucc⟩
    obtain rfl := List.append_cancel_left hrun
    exact ⟨_, [], (List.append_nil _).symm, ⟨rfl, hsucc⟩, rfl, hres⟩
  · rintro ⟨_, _, rfl, ⟨rfl, hsucc⟩, rfl, hres⟩
    rw [List.append_nil]
    exact ⟨rfl, hres, hsucc⟩

theorem does_dual {key : UInt32} (h : hdr.key = key) (vols : String × String)
    (parts : (String × String) × String × String) :
    m.Does (m.doDualImage key vols parts hdr src) (0 ≤ ·)
      (m.Served src hdr.imgSz (m.dual vols parts)) := by
  rw [doDualImage, if_neg (not_not.mpr h), dual]
  split
  · exact (does_vol_unseen _).ignore ((does_vol_unseen _).ignore does_size)
  · exact (does_update _ _).check ((does_update _ _).check does_size)

theorem does_env (h : hdr.key = vmimgBootenvKey) :
    m.Does (m.doEnvImage hdr src) (0 ≤ ·) (m.Served src hdr.imgSz
      (.named "env" "fl_bootenv1" "fl_bootenv1_sz" ::
        if m.envRedund then [.named "env2" "fl_bootenv2" "fl_bootenv2_sz"] else [])) := by
  rw [doEnvImage, if_neg (not_not.mpr h)]
  refine (does_named _ _ _).check ?_
  split
  · exact (does_named _ _ _).check does_size
  · exact does_size

theorem does_osgi : m.Does (m.doOsgiImage hdr src) (0 ≤ ·) (m.Served src hdr.imgSz
    (if m.oneUbi then [.vol "ubi_osgi"] else [.part "fl_osgi" "fl_osgi_sz"])) := by
  rw [doOsgiImage]
  split
  · exact (does_vol _).check does_size
  · exact (does_update _ _).check does_size

theorem does_application : m.Does (m.doApplicationImage hdr src) (0 ≤ ·) (m.Served src hdr.imgSz
    (if m.oneUbi then [.vol "ubi_framework1", .vol "ubi_framework2", .cleanVol "ubi_apps"]
      else [.part "fl_framework1" "fl_framework1_sz", .part "fl_framework2" "fl_framework2_sz",
        .cleanPart "fl_apps" "fl_apps_sz"])) := by
  rw [doApplicationImage]
  split
  · exact (does_vol _).check ((does_vol _).check ((does_cleanVol _).check does_size))
  · exact (does_update _ _).check ((does_update _ _).check ((does_cleanPart _ _).check does_size))

theorem does_case {c : Prop} [Decidable c] {a : Cmd Int} {o : Option (Cmd Int)}
    {js js' : List Job} (ha : c → m.Does a (0 ≤ ·) (m.Served src len js))
    (ho : ¬c → ∃ act, o = some act ∧ m.Does act (0 ≤ ·) (m.Served src len js')) :
    ∃ act, (if c then some a else o) = some act ∧
      m.Does act (0 ≤ ·) (m.Served src len (if c then js else js')) := by
  by_cases h : c
  · rw [if_pos h, if_pos h]
    exact ⟨a, rfl, ha h⟩
  · rw [if_neg h, if_neg h]
    exact ho h

/-- The function for a listed key does what the key stands for. -/
theorem handler_does (h : hdr.key ∈ vmimgKeyList) (src : UInt32) :
    ∃ act, m.handler hdr src = some act ∧
      m.Does act (0 ≤ ·) (m.Served src hdr.imgSz (m.jobs hdr.key)) := by
  simp only [vmimgKeyList, List.mem_cons, List.not_mem_nil, or_false] at h
  refine does_case does_env fun h1 => does_case does_resize fun h2 =>
    does_case (fun h => does_dual h _ _) fun h3 => does_case (fun _ => does_boot) fun h4 =>
    does_case (fun h => does_dual h _ _) fun h5 => does_case (fun h => does_dual h _ _) fun h6 =>
    does_case (fun _ => does_size) fun h7 => does_case (fun _ => does_size) fun h8 =>
    does_case (fun _ => does_application) fun h9 => does_case (fun _ => does_osgi) fun h10 => ?_
  rcases h with h | h | h | h | h | h | h | h | h | h <;> contradiction

-- ---------------------------------------------------------------------------
-- What of a record goes to flash
-- ---------------------------------------------------------------------------

variable (m)

/-- The number of bytes that a job writes to flash; only whole raw pages go to the boot
partition. -/
def flashes (len : UInt32) : Job → Option UInt32
  | .part _ _ => some len
  | .named _ _ _ => some len
  | .vol _ => some len
  | .boot =>
    some (if ¬m.snof ∧ m.rawBoot then
      if m.nandPageSize = 2048 then len / 0x840 * 0x840 else len / 0x1080 * 0x1080
    else len)
  | .cleanPart _ _ => none
  | .cleanVol _ => none
  | .resize => none

/-- The ranges passed to flash are the range `r`, if there is one, and nothing else. -/
def Passes (cs : List Command) (r : Option (UInt32 × UInt32)) : Prop :=
  (∀ c ∈ cs, ∀ s ∈ c.sources, r = some s) ∧ ∀ s, r = some s → ∃ c ∈ cs, s ∈ c.sources

variable {m} {h cs : List Command}

theorem Updated.passes {addr size : String} (hd : m.Updated addr size src len h cs) :
    Passes cs (some (src, len)) := by
  obtain ⟨base, sz, -, -, -, -, rfl, -⟩ := hd
  simp [Passes, Command.sources]

theorem passes_bootCommand {partSz : UInt32}
    (hs : m.Succeed h [m.bootCommand partSz src len]) :
    Passes [m.bootCommand partSz src len] ((m.flashes len .boot).map (src, ·)) := by
  have hne := World.succeed_single.mp hs
  unfold bootCommand at hne ⊢
  simp only [flashes]
  split
  · split
    · simp [Passes, Command.sources]
    · split
      · simp [Passes, Command.sources]
      · next hraw h2 h4 =>
        rw [if_pos hraw, if_neg h2, if_neg h4] at hne
        exact absurd trivial hne
  · simp [Passes, Command.sources]

theorem Done.passes {j : Job} (hd : m.Done src len j h cs) :
    Passes cs ((m.flashes len j).map (src, ·)) := by
  cases j with
  | part addr size => exact Updated.passes hd
  | named part addr size =>
    simp only [Done] at hd
    split at hd
    · subst hd
      simp [Passes, flashes, Command.sources]
    · obtain ⟨cs', rfl, hd⟩ := hd
      have := Updated.passes hd
      simp only [Passes, flashes, Option.map_some, Option.some.injEq, forall_eq'] at this ⊢
      simpa [Command.sources] using this.1
  | vol vol =>
    obtain ⟨rfl, -⟩ := hd
    simp [Passes, flashes, Command.sources]
  | cleanPart addr size =>
    obtain ⟨base, sz, -, -, -, rfl, -⟩ := hd
    simp [Passes, flashes, Command.sources]
  | cleanVol vol =>
    obtain ⟨rfl, -⟩ := hd
    simp [Passes, flashes, Command.sources]
  | boot =>
    obtain ⟨value, -, -, rfl, hs⟩ := hd
    exact passes_bootCommand hs
  | resize =>
    obtain ⟨rfl, -⟩ := hd
    refine ⟨fun c hc s hs => ?_, nofun⟩
    rw [(m.volumeModify_plain src len c hc).2] at hs
    cases hs

/-- All that is passed to flash for a record are the ranges of its jobs, and all of them. -/
theorem Served.sources {js : List Job} (hs : m.Served src len js h cs) :
    (∀ c ∈ cs, ∀ s ∈ c.sources, ∃ j ∈ js, (m.flashes len j).map (src, ·) = some s) ∧
      ∀ j ∈ js, ∀ s, (m.flashes len j).map (src, ·) = some s → ∃ c ∈ cs, s ∈ c.sources := by
  induction js generalizing h cs with
  | nil =>
    obtain ⟨rfl, -⟩ := hs
    simp
  | cons j js ih =>
    obtain ⟨cs₁, cs₂, rfl, hd, hrest⟩ := hs
    obtain ⟨hin, hall⟩ := hd.passes
    obtain ⟨hin', hall'⟩ := ih hrest
    refine ⟨fun c hc s hs => ?_, fun j' hj' s hs => ?_⟩
    · rcases List.mem_append.mp hc with hc | hc
      · exact ⟨j, List.mem_cons_self, hin c hc s hs⟩
      · obtain ⟨j', hj', he⟩ := hin' c hc s hs
        exact ⟨j', List.mem_cons_of_mem _ hj', he⟩
    · rcases List.mem_cons.mp hj' with rfl | hj'
      · obtain ⟨c, hc, he⟩ := hall s hs
        exact ⟨c, List.mem_append_left _ hc, he⟩
      · obtain ⟨c, hc, he⟩ := hall' j' hj' s hs
        exact ⟨c, List.mem_append_right _ hc, he⟩

end Machine

end BismarckPreloader.Vmimg
