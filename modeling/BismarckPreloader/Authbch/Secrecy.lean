import BismarckPreloader.Authbch.Image
import BismarckPreloader.Fdt.Tree

/-!
# What the output tells about the secret key

Two runs that differ in the secret key only, and whose signatures of U-Boot are the same,
should write the same file. The copy of the public key into the header is as long as the
secret key, which lies behind it, so the first half of the secret key lands in the tree:
`sameOutput_iff`. Of a run that leaves a buffer nothing can be said, so it counts as a leak.
-/

namespace BismarckPreloader.Authbch

open Nand

structure TwoKeys (t : Tool) (info : CryptoInfo) where
  sk : Vector UInt8 64
  sk' : Vector UInt8 64
  same : ∀ p, t.prepare info.target = .ok p → t.sign p.pimg sk = t.sign p.pimg sk'

/-- An access outside a buffer or to what was never written. The tool goes on behind it with
whatever is there, so nothing is known of its output. -/
def Why.Fault : Why → Prop
  | .uninitialised | .outOfBounds _ => True
  | .invalidFormat | .assertion => False

def Sound (x : Except Stopped α) : Prop := ∀ e, x = .error e → ¬e.why.Fault

structure TwoKeys.SameOutput (k : TwoKeys t info) : Prop where
  sound : Sound (t.doImgProcess { info with signSk := k.sk })
  sound' : Sound (t.doImgProcess { info with signSk := k.sk' })
  file : outFile (t.doImgProcess { info with signSk := k.sk }) =
    outFile (t.doImgProcess { info with signSk := k.sk' })

def Prepared.Room (p : Prepared) (fdt : Mem) (data : Nat) : Prop :=
  setpropRoom p.fdt ubtPath signProp 128 = .ok (fdt, .ok data) ∧ data + 128 ≤ p.fdtSize

structure Prepared.InBounds (p : Prepared) : Prop where
  room : ∀ e, setpropRoom p.fdt ubtPath signProp 128 = .error e → ¬e.Fault
  fits : ∀ fdt data, setpropRoom p.fdt ubtPath signProp 128 = .ok (fdt, .ok data) →
    data + 128 ≤ p.fdtSize

structure Tool.InBounds (t : Tool) (g : Target) : Prop where
  prepare : Sound (t.prepare g)
  sign : ∀ p, t.prepare g = .ok p → p.InBounds

def Target.WritesTree (g : Target) : Prop := g.nand = true → g.copies ≠ 0

def Tool.WritesSigned (t : Tool) (g : Target) : Prop :=
  g.WritesTree ∧ ∃ p fdt data, t.prepare g = .ok p ∧ p.Room fdt data

theorem length_overwrite {l src : List UInt8} (h : off + src.length ≤ l.length) :
    (overwrite l off src).length = l.length := by
  simp only [overwrite, List.length_append, List.length_take, List.length_drop]
  omega

theorem cryptoHeader_eq (info : CryptoInfo) (signPtr : UInt32) (signature : Vector UInt8 64) :
    cryptoHeader info signPtr signature =
      signature.toList ++ (info.signPk.toList ++ info.signSk.toList.take 32) := by
  have hpk : info.signPk.toList.length = 32 := Vector.length_toList
  have hsign : signature.toList.length = 64 := Vector.length_toList
  have hkeys : (info.signPk.toList ++ info.signSk.toList).take 64 =
      info.signPk.toList ++ info.signSk.toList.take 32 := by
    rw [List.take_append, List.take_of_length_le (by omega), hpk]
  have hlen : (info.signPk.toList ++ info.signSk.toList.take 32).length = 64 := by
    simp [hpk]
  obtain ⟨hdr, hhdr, heq⟩ : ∃ hdr : List UInt8, hdr.length = 128 ∧
      cryptoHeader info signPtr signature = overwrite (overwrite hdr 64
        ((info.signPk.toList ++ info.signSk.toList).take 64)) 0 signature.toList := by
    refine ⟨_, ?_, rfl⟩
    rw [length_overwrite, length_overwrite] <;> simp [overwrite, wordBytes]
  have hrest : hdr.drop (64 + 64) = [] := List.drop_eq_nil_of_le (by omega)
  have htake : (hdr.take 64).length = 64 := by
    rw [List.length_take, hhdr]
    rfl
  rw [heq, hkeys, overwrite, overwrite, hlen, hrest, hsign, List.append_nil, List.take_zero,
    List.nil_append, Nat.zero_add, List.drop_left' htake]

theorem length_cryptoHeader (info : CryptoInfo) (signPtr : UInt32) (signature : Vector UInt8 64) :
    (cryptoHeader info signPtr signature).length = 128 := by
  simp [cryptoHeader_eq]

-- ---------------------------------------------------------------------------
-- The tree can be read off the file
-- ---------------------------------------------------------------------------

theorem treeBytes_inj : treeBytes fdt n = treeBytes fdt' n ↔ ∀ k < n, fdt k = fdt' k := by
  simp only [treeBytes, List.map_inj_left, List.mem_range]

theorem getD_eq_of_ext {l l' : List UInt8} (hlen : l.length = l'.length)
    (h : ∀ k < l.length, l.getD k d = l'.getD k d) : l = l' := by
  apply List.ext_getElem hlen
  intro k hk hk'
  have := h k hk
  rwa [List.getD_eq_getElem _ _ hk, List.getD_eq_getElem _ _ hk'] at this

theorem treeBytes_copy_inj {fdt : Mem} {val val' : List UInt8} (hlen : val.length = val'.length)
    (hfit : data + val.length ≤ n) :
    treeBytes (fdt.copy data (val.getD · 0) val.length) n =
      treeBytes (fdt.copy data (val'.getD · 0) val'.length) n ↔ val = val' := by
  rw [treeBytes_inj]
  constructor
  · intro h
    refine getD_eq_of_ext hlen (d := 0) fun k hk => ?_
    have hat := h (data + k) (by omega)
    rwa [Mem.copy_inside _ _ hk, Mem.copy_inside _ _ (hlen ▸ hk)] at hat
  · rintro rfl k -
    rfl

theorem sector_inj : sector data i = sector data' i ↔
    ∀ k < 512, data (i * 512 + k) = data' (i * 512 + k) := by
  simp only [sector, List.map_inj_left, List.mem_range]

theorem onOnes_inj {d d' : List UInt8} (hlen : d.length = d'.length) (hle : d.length ≤ 1024)
    (h0 : sector (onOnes d) 0 = sector (onOnes d') 0)
    (h1 : sector (onOnes d) 1 = sector (onOnes d') 1) : d = d' := by
  rw [sector_inj] at h0 h1
  refine getD_eq_of_ext hlen (d := 0xFF) fun k hk => ?_
  by_cases hlow : k < 512
  · simpa [onOnes] using h0 k hlow
  · have := h1 (k - 512) (by omega)
    rwa [show 1 * 512 + (k - 512) = k by omega] at this

theorem bytes_firstLoad_inj {p q : FlPage}
    (h : (Written.firstLoad p).bytes encode n = (Written.firstLoad q).bytes encode n) :
    sector p.data 0 = sector q.data 0 ∧ sector p.data 1 = sector q.data 1 := by
  refine FlPage.sectors_of_bytes (List.append_inj h ?_).1
  rw [p.length_bytes encode, q.length_bytes encode]

theorem flPages_inj {img img' : List UInt8} (hlen : img.length = img'.length)
    (h : (flPages sig img).map (Written.bytes encode n) =
      (flPages sig img').map (Written.bytes encode n)) : img = img' := by
  have hpiece : ∀ i : Nat, (pieces 1024 img)[i]? = (pieces 1024 img')[i]? := by
    intro i
    by_cases hi : i < (img.length + 1024 - 1) / 1024
    · have hi' := hi
      rw [hlen] at hi'
      have hat := congrArg (·[i]?) h
      simp only [flPages, List.getElem?_map, List.getElem?_zipIdx, getElem?_pieces hi,
        getElem?_pieces hi', Option.map_some, Option.some.injEq] at hat
      obtain ⟨h0, h1⟩ := bytes_firstLoad_inj hat
      rw [getElem?_pieces hi, getElem?_pieces hi']
      refine congrArg some (onOnes_inj ?_ (List.length_take_le _ _) h0 h1)
      simp only [List.length_take, List.length_drop, hlen]
    · rw [List.getElem?_eq_none (by rw [length_pieces]; omega),
        List.getElem?_eq_none (by rw [length_pieces, ← hlen]; omega)]
  rw [← flatten_pieces (by decide : 0 < 1024) img, List.ext_getElem? hpiece,
    flatten_pieces (by decide)]

theorem CryptoInfo.target_pageSize (info : CryptoInfo) :
    info.target.pageSize = 2048 ∨ info.target.pageSize = 4096 := by
  unfold CryptoInfo.target
  dsimp only
  split
  · exact .inr rfl
  · exact .inl rfl

theorem writePages_zero (encode : Encoder) (h : n = 2048 ∨ n = 4096) (out : List UInt8)
    (pages : List Written) :
    writePages encode n out 0 pages =
      (pages.map (Written.bytes encode n)).flatten ++
        out.drop (pages.map (Written.bytes encode n)).flatten.length := by
  rw [writePages, pwritePages_eq, pwrite_zero]
  simp only [List.mem_map, forall_exists_index, and_imp]
  rintro b p - rfl
  exact Written.length_bytes encode h p

theorem map_length_bytes (encode : Encoder) (h : n = 2048 ∨ n = 4096) (pages : List Written) :
    (pages.map (Written.bytes encode n)).map List.length =
      List.replicate pages.length (pageSizeWithSpare n) := by
  rw [List.map_map, List.eq_replicate_iff]
  refine ⟨by simp, ?_⟩
  simp only [List.mem_map, Function.comp_apply, forall_exists_index, and_imp]
  rintro b p - rfl
  exact Written.length_bytes encode h p

theorem length_flPages (sig : UInt32) (img : List UInt8) :
    (flPages sig img).length = (img.length + 1024 - 1) / 1024 := by
  rw [flPages, List.length_map, List.length_zipIdx, length_pieces]

theorem genFdt_inj (t : Tool) {g : Target} (hps : g.pageSize = 2048 ∨ g.pageSize = 4096)
    (hc : g.copies ≠ 0) (out : List UInt8) :
    t.genFdt g out fdt n = t.genFdt g out fdt' n ↔ treeBytes fdt n = treeBytes fdt' n := by
  refine ⟨fun h => ?_, fun h => by rw [Tool.genFdt, Tool.genFdt, h]⟩
  have hlen : (treeBytes fdt n).length = (treeBytes fdt' n).length := by simp [treeBytes]
  obtain ⟨c, hcopies⟩ : ∃ c, g.copies.toNat = c + 1 :=
    Nat.exists_eq_succ_of_ne_zero fun h0 => hc (UInt8.toNat_inj.mp h0)
  have hpages : ∀ img, fdtPages img (c + 1) = flPages Auth.fdtSwMagic img ++
      (List.range c).flatMap fun _ => flPages Auth.fdtSwMagic img := by
    intro img
    rw [fdtPages, List.range_succ_eq_map, List.flatMap_cons, List.flatMap_map]
  rw [Tool.genFdt, Tool.genFdt, hcopies, hpages, hpages, writePages_zero _ hps,
    writePages_zero _ hps] at h
  simp only [List.map_append, List.flatten_append, List.append_assoc] at h
  have hlens : ((flPages Auth.fdtSwMagic (treeBytes fdt n)).map
      (Written.bytes t.encode g.pageSize)).map List.length =
      ((flPages Auth.fdtSwMagic (treeBytes fdt' n)).map
        (Written.bytes t.encode g.pageSize)).map List.length := by
    rw [map_length_bytes _ hps, map_length_bytes _ hps, length_flPages, length_flPages, hlen]
  have hflat := (List.append_inj h (by rw [List.length_flatten, List.length_flatten, hlens])).1
  exact flPages_inj hlen (List.eq_iff_flatten_eq.mpr ⟨hflat, hlens⟩)

-- ---------------------------------------------------------------------------
-- Two runs
-- ---------------------------------------------------------------------------

theorem setpropPathVal_of_room {val : List UInt8}
    (h : setpropRoom fdt path name val.length = .ok (fdt', .ok data)) :
    setpropPathVal fdt size path name val =
      if data + val.length ≤ size then .ok (fdt'.copy data (val.getD · 0) val.length)
      else .error (.outOfBounds data) := by
  rw [setpropPathVal, h]
  rfl

section Finish

variable (t : Tool) {g : Target} {p : Prepared} {hdr hdr' : List UInt8}

theorem finish_of_room (h : p.Room fdt data) (hlen : hdr.length = 128) :
    t.finish g p hdr = .ok
      (if g.nand then t.genFdt g p.out (fdt.copy data (hdr.getD · 0) hdr.length) p.fdtSize
      else pwrite p.out 0 (treeBytes (fdt.copy data (hdr.getD · 0) hdr.length) p.fdtSize)) := by
  rw [Tool.finish, setpropPathVal_of_room (by rw [hlen]; exact h.1), if_pos (hlen ▸ h.2)]
  cases g.nand <;> rfl

theorem sound_finish_iff (hlen : hdr.length = 128) : Sound (t.finish g p hdr) ↔ p.InBounds := by
  have herror : ∀ why, setpropPathVal p.fdt p.fdtSize ubtPath signProp hdr = .error why ↔
      t.finish g p hdr = .error ⟨why, p.out⟩ := by
    intro why
    rw [Tool.finish]
    cases setpropPathVal p.fdt p.fdtSize ubtPath signProp hdr with
    | error w => simp [stopAt, Except.mapError]
    | ok fdt => cases hg : g.nand <;> simp [stopAt, Except.mapError, pure, Except.pure]
  have hstop : ∀ e, t.finish g p hdr = .error e →
      setpropPathVal p.fdt p.fdtSize ubtPath signProp hdr = .error e.why := by
    intro e he
    rw [Tool.finish] at he
    obtain hx | ⟨fdt, -, he⟩ := bind_error.mp he
    · cases hv : setpropPathVal p.fdt p.fdtSize ubtPath signProp hdr with
      | error w =>
        rw [hv] at hx
        cases hx
        rfl
      | ok fdt =>
        rw [hv] at hx
        cases hx
    · cases hg : g.nand <;> simp [hg, pure, Except.pure] at he
  constructor
  · intro h
    refine ⟨fun why hr => h ⟨why, p.out⟩ ((herror why).mp ?_), fun fdt data hr => ?_⟩
    · rw [setpropPathVal, hlen, hr, error_bind]
    · by_contra hout
      refine h ⟨.outOfBounds data, p.out⟩ ((herror _).mp ?_) trivial
      rw [setpropPathVal_of_room (by rw [hlen]; exact hr), if_neg (hlen ▸ hout)]
  · intro h e he
    have hv := hstop e he
    rw [setpropPathVal, hlen] at hv
    obtain hx | ⟨⟨fdt, err | data⟩, hr, hv⟩ := bind_error.mp hv
    · exact h.room _ hx
    · cases hv
    · dsimp only at hv
      rw [if_pos (h.fits fdt data hr)] at hv
      cases hv

theorem finish_of_no_room (h : ∀ fdt data, ¬p.Room fdt data) (hlen : hdr.length = 128)
    (hlen' : hdr'.length = 128) : t.finish g p hdr = t.finish g p hdr' := by
  have hval : setpropPathVal p.fdt p.fdtSize ubtPath signProp hdr =
      setpropPathVal p.fdt p.fdtSize ubtPath signProp hdr' := by
    rw [setpropPathVal, setpropPathVal, hlen, hlen']
    cases hr : setpropRoom p.fdt ubtPath signProp 128 with
    | error e => rfl
    | ok r =>
      obtain ⟨fdt, e | data⟩ := r
      · rfl
      · have hout : ¬data + 128 ≤ p.fdtSize := fun hfit => h fdt data ⟨hr, hfit⟩
        simp only [ok_bind, if_neg hout]
  rw [Tool.finish, Tool.finish, hval]

theorem genFdt_of_no_copies (hc : g.copies = 0) (out : List UInt8) (fdt : Mem) (n : Nat) :
    t.genFdt g out fdt n = out := by
  rw [Tool.genFdt, hc]
  rfl

theorem outFile_finish_inj (hps : g.pageSize = 2048 ∨ g.pageSize = 4096) (h : p.Room fdt data)
    (hlen : hdr.length = 128) (hlen' : hdr'.length = 128) :
    outFile (t.finish g p hdr) = outFile (t.finish g p hdr') ↔ ¬g.WritesTree ∨ hdr = hdr' := by
  have hfit : data + hdr.length ≤ p.fdtSize := hlen ▸ h.2
  have htree : treeBytes (fdt.copy data (hdr.getD · 0) hdr.length) p.fdtSize =
      treeBytes (fdt.copy data (hdr'.getD · 0) hdr'.length) p.fdtSize ↔ hdr = hdr' :=
    treeBytes_copy_inj (hlen.trans hlen'.symm) hfit
  rw [finish_of_room t h hlen, finish_of_room t h hlen', outFile, outFile, Target.WritesTree]
  cases g.nand with
  | true =>
    simp only [if_true, forall_true_left]
    by_cases hc : g.copies = 0
    · simp only [genFdt_of_no_copies t hc, hc, ne_eq, not_true_eq_false, not_false_eq_true,
        true_or]
    · rw [genFdt_inj t hps hc, htree]
      simp [hc]
  | false =>
    simp only [Bool.false_eq_true, if_false, false_implies, not_true_eq_false, false_or]
    rw [pwrite_zero, pwrite_zero, ← htree]
    refine ⟨fun hfile => (List.append_inj hfile ?_).1, fun hfile => by rw [hfile]⟩
    simp [treeBytes]

end Finish

theorem cryptoHeader_sk_inj (info : CryptoInfo) (signPtr : UInt32) (signature : Vector UInt8 64)
    (sk sk' : Vector UInt8 64) :
    cryptoHeader { info with signSk := sk } signPtr signature =
      cryptoHeader { info with signSk := sk' } signPtr signature ↔
        sk.toList.take 32 = sk'.toList.take 32 := by
  rw [cryptoHeader_eq, cryptoHeader_eq, List.append_cancel_left_eq, List.append_cancel_left_eq]

theorem doImgProcess_of_error {t : Tool} (h : t.prepare info.target = .error e) :
    t.doImgProcess info = .error e := by
  rw [Tool.doImgProcess, h, error_bind]

theorem doImgProcess_of_ok {t : Tool} (h : t.prepare info.target = .ok p) :
    t.doImgProcess info =
      t.finish info.target p (cryptoHeader info p.signPtr (t.sign p.pimg info.signSk)) := by
  rw [Tool.doImgProcess, h, ok_bind]

theorem TwoKeys.file_iff (k : TwoKeys t info) (hp : t.prepare info.target = .ok p) :
    outFile (t.doImgProcess { info with signSk := k.sk }) =
        outFile (t.doImgProcess { info with signSk := k.sk' }) ↔
      ¬t.WritesSigned info.target ∨ k.sk.toList.take 32 = k.sk'.toList.take 32 := by
  have htarget : ∀ sk, ({ info with signSk := sk } : CryptoInfo).target = info.target := fun _ => rfl
  rw [doImgProcess_of_ok (htarget k.sk ▸ hp), doImgProcess_of_ok (htarget k.sk' ▸ hp), htarget,
    htarget, ← k.same p hp]
  have hlen : ∀ sk, (cryptoHeader { info with signSk := sk } p.signPtr
      (t.sign p.pimg k.sk)).length = 128 := fun _ => length_cryptoHeader _ _ _
  by_cases hroom : ∃ fdt data, p.Room fdt data
  · obtain ⟨fdt, data, hroom⟩ := hroom
    have hwrites : t.WritesSigned info.target ↔ info.target.WritesTree :=
      ⟨And.left, fun h => ⟨h, p, fdt, data, hp, hroom⟩⟩
    rw [hwrites, ← cryptoHeader_sk_inj info p.signPtr (t.sign p.pimg k.sk)]
    exact outFile_finish_inj t info.target_pageSize hroom (hlen k.sk) (hlen k.sk')
  · refine iff_of_true ?_ (.inl ?_)
    · exact congrArg outFile (finish_of_no_room t (fun fdt data h => hroom ⟨fdt, data, h⟩)
        (hlen k.sk) (hlen k.sk'))
    · rintro ⟨-, p', fdt, data, hp', h⟩
      cases hp.symm.trans hp'
      exact hroom ⟨fdt, data, h⟩

theorem sound_doImgProcess_iff (t : Tool) (info : CryptoInfo) :
    Sound (t.doImgProcess info) ↔ t.InBounds info.target := by
  cases hp : t.prepare info.target with
  | error e =>
    rw [doImgProcess_of_error hp]
    constructor
    · refine fun h => ⟨fun e' he' => ?_, fun p hp' => by cases hp.symm.trans hp'⟩
      cases hp.symm.trans he'
      exact h e rfl
    · rintro h _ ⟨⟩
      exact h.prepare e hp
  | ok p =>
    rw [doImgProcess_of_ok hp, sound_finish_iff t (length_cryptoHeader _ _ _)]
    constructor
    · intro h
      refine ⟨fun e he => ?_, fun p' hp' => ?_⟩
      · cases hp.symm.trans he
      · cases hp.symm.trans hp'
        exact h
    · exact fun h => h.sign p hp

def structBytes (T : Fdt.Tree) : List UInt8 := (Fdt.layout T.toks).flatMap wordBytes

def flatten (T : Fdt.Tree) : List UInt8 :=
  let struct := structBytes T
  [Auth.fdtMagic, UInt32.ofNat (56 + struct.length + T.strings.length), 56,
    UInt32.ofNat (56 + struct.length), 40, 17, 16, 0, UInt32.ofNat T.strings.length,
    UInt32.ofNat struct.length].flatMap wordBytes ++ List.replicate 16 0 ++ struct ++ T.strings

def smallFit : Fdt.Tree where
  before := 0
  body := .node (Fdt.ascii "images")
    (.node (Fdt.ascii "preloader") (.prop 0 [0, 0, 0, 1] (.prop 10 [0, 0, 0, 0] .done))
      (.node (Fdt.ascii "uboot")
        (.prop 0 [0, 0, 0, 1] (.prop 10 [0, 0, 0, 4] (.prop 22 (List.replicate 128 0) .done)))
        .done)) .done
  after := 0
  strings := Fdt.ascii "data-size" ++ [0] ++ Fdt.ascii "data-offset" ++ [0] ++ Fdt.ascii "sign" ++ [0]
  wellFormed := by decide +kernel
  sized := by decide +kernel

def smallTool : Tool where
  input := (flatten smallFit).rightpad (tagAlign (flatten smallFit).length) 0 ++ [1, 0, 0, 0, 2]
  sign _ _ := Vector.replicate 64 0
  encode _ _ := Vector.replicate 10 0
  fdtPtr := 0
  junk _ := 0

def smallInfo : CryptoInfo := ⟨0, 0, 0, 1, Vector.replicate 32 0, Vector.replicate 64 0⟩

def smallKeys : TwoKeys smallTool smallInfo :=
  ⟨Vector.replicate 64 1, Vector.replicate 64 2, fun _ _ => rfl⟩

end BismarckPreloader.Authbch
