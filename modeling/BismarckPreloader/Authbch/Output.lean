import BismarckPreloader.Authbch.Secrecy

/-!
# The pages of the output

For a NAND flash the output file is a sequence of pages: the copies of the tree, the
copies of the preloader up to the end of a block, and U-Boot. `Shipped` is a run that got
that far, and `Shipped.output` says that its file is the bytes of `Shipped.pages`.
-/

namespace BismarckPreloader.Authbch

open Nand

/-- An image with the signature of a preloader and a first-load part inside it. -/
structure PlrImage (img : List UInt8) : Prop where
  header : 0x40 ≤ img.length
  signature : getFirstLoadSignature img = signaturePlrFl
  inside : getFirstLoadBytes img ≤ img.length

structure Shipped (t : Tool) (info : CryptoInfo) where
  p : Prepared
  fdt : Mem
  nand : info.dt = cryptoNandDevice
  copies_ne_zero : info.copies ≠ 0
  prepared : t.prepare info.target = .ok p
  signed : setpropPathVal p.fdt p.fdtSize ubtPath signProp
    (cryptoHeader info p.signPtr (t.sign p.pimg info.signSk)) = .ok fdt
  plr : PlrImage p.plr

section Pages

variable (encode : Encoder) {n : Nat} (hn : n = 2048 ∨ n = 4096)

include hn

theorem length_flatMap_bytes (pages : List Written) :
    (pages.flatMap (Written.bytes encode n)).length = pages.length * pageSizeWithSpare n := by
  rw [List.length_flatMap, List.map_congr_left fun p _ => Written.length_bytes encode hn p,
    List.map_const', List.sum_replicate_nat]

theorem writePages_length {out : List UInt8} (hoff : off = out.length) (pages : List Written) :
    writePages encode n out off pages = out ++ pages.flatMap (Written.bytes encode n) := by
  rw [writePages, pwritePages_eq, hoff, pwrite_length, List.flatMap_def]
  simp only [List.mem_map, forall_exists_index, and_imp]
  rintro b p - rfl
  exact Written.length_bytes encode hn p

omit encode in
theorem tagAlign_pages (count : Nat) :
    tagAlign (count * pageSizeWithSpare n) = count * pageSizeWithSpare n := by
  have hraw : pageSizeWithSpare n = 2112 ∨ pageSizeWithSpare n = 4224 := by
    rcases hn with rfl | rfl
    · exact .inl rfl
    · exact .inr rfl
  rcases hraw with h | h
  · rw [tagAlign, h]
    omega
  · rw [tagAlign, h]
    omega

end Pages

theorem getElem?_flPages (h : i < (img.length + 1024 - 1) / 1024) :
    (flPages sig img)[i]? = some (.firstLoad ⟨sig, UInt16.ofNat i,
      UInt16.ofNat (roundToFlPage img.length), onOnes ((img.drop (i * 1024)).take 1024)⟩) := by
  rw [flPages, List.getElem?_map, List.getElem?_zipIdx, getElem?_pieces h, Option.map_some,
    Option.map_some, Nat.zero_add]

def plrArea (g : Target) (count : Nat) (plr : List UInt8) : List Written :=
  let pages := plrPages g.pageSize g.copies plr
  pages ++ List.replicate
    (blankCount g.pageSize ((count + pages.length) * pageSizeWithSpare g.pageSize)) .blank

theorem bchGenPlr_eq (encode : Encoder) {g : Target} (hps : g.pageSize = 2048 ∨ g.pageSize = 4096)
    (hplr : PlrImage plr) (hout : out.length = count * pageSizeWithSpare g.pageSize) :
    bchGenPlr encode g.pageSize g.copies out plr (count * pageSizeWithSpare g.pageSize) =
      .ok (out ++ (plrArea g count plr).flatMap (Written.bytes encode g.pageSize),
        (plrArea g count plr).length * pageSizeWithSpare g.pageSize) := by
  have hlen := hplr.header
  have hin := hplr.inside
  rw [bchGenPlr, if_neg (by omega), if_neg (by simp [hplr.signature]), if_neg (by omega),
    if_neg (by omega)]
  dsimp only
  rw [writePages_length encode hps hout.symm]
  have hmid : count * pageSizeWithSpare g.pageSize +
      (plrPages g.pageSize g.copies plr).length * pageSizeWithSpare g.pageSize =
      (out ++ (plrPages g.pageSize g.copies plr).flatMap
        (Written.bytes encode g.pageSize)).length := by
    rw [List.length_append, length_flatMap_bytes encode hps, hout]
  rw [writePages_length encode hps hmid, ← hmid, ← Nat.add_mul, List.append_assoc,
    ← List.flatMap_append, plrArea, List.length_append, List.length_replicate]

theorem processPlr_ok {t : Tool} {g : Target} (hps : g.pageSize = 2048 ∨ g.pageSize = 4096)
    (hnand : g.nand = true) (hout : out.length = count * pageSizeWithSpare g.pageSize)
    (h : t.processPlr g fdt fdtSize (count * pageSizeWithSpare g.pageSize) out =
      .ok (plr, fdt', out', plrEncoded)) (hplr : PlrImage plr) :
    out' = out ++ (plrArea g count plr).flatMap (Written.bytes t.encode g.pageSize) ∧
      plrEncoded = (plrArea g count plr).length * pageSizeWithSpare g.pageSize := by
  simp only [Tool.processPlr, hnand, if_true, tagAlign_pages hps] at h
  obtain ⟨size, -, h⟩ := bind_ok.mp h
  obtain ⟨-, -, h⟩ := bind_ok.mp h
  obtain ⟨fdt₁, -, h⟩ := bind_ok.mp h
  obtain ⟨⟨out₁, encoded⟩, hgen, h⟩ := bind_ok.mp h
  cases h
  rw [bchGenPlr_eq t.encode hps hplr hout] at hgen
  cases hgen
  exact ⟨rfl, rfl⟩

theorem processUbt_ok {t : Tool} {g : Target} (hps : g.pageSize = 2048 ∨ g.pageSize = 4096)
    (hnand : g.nand = true) (hoff : plrOff + plrEncoded = out.length)
    (h : t.processUbt g plr fdt fdtSize plrOff plrEncoded out = .ok (ubt, fdt', out')) :
    out' = out ++ (ubtPages g.pageSize g.copies ubt).flatMap
      (Written.bytes t.encode g.pageSize) := by
  simp only [Tool.processUbt, hnand, if_true] at h
  obtain ⟨size, -, h⟩ := bind_ok.mp h
  obtain ⟨off, -, h⟩ := bind_ok.mp h
  obtain ⟨fdt₁, -, h⟩ := bind_ok.mp h
  obtain ⟨fdt₂, -, h⟩ := bind_ok.mp h
  cases h
  exact writePages_length t.encode hps hoff _

theorem stopAt_ok : stopAt out x = .ok a ↔ x = .ok a := by
  cases x <;> simp [stopAt, Except.mapError]

theorem length_fdtPages (img : List UInt8) (copies : Nat) :
    (fdtPages img copies).length = copies * ((img.length + 1024 - 1) / 1024) := by
  simp [fdtPages, length_flPages]

def treeCount (g : Target) (fdtSize : Nat) : Nat := g.copies.toNat * ((fdtSize + 1024 - 1) / 1024)

theorem length_treePages (g : Target) (fdt : Mem) (fdtSize : Nat) :
    (fdtPages (treeBytes fdt fdtSize) g.copies.toNat).length = treeCount g fdtSize := by
  rw [length_fdtPages, treeBytes, List.length_map, List.length_range, treeCount]

def ubtArea (g : Target) (ubt : Option (List UInt8)) : List Written :=
  ubt.elim [] (ubtPages g.pageSize g.copies)

def imageArea (g : Target) (p : Prepared) : List Written :=
  plrArea g (treeCount g p.fdtSize) p.plr ++ ubtArea g p.ubt

theorem prepare_out {t : Tool} {g : Target} (hps : g.pageSize = 2048 ∨ g.pageSize = 4096)
    (hnand : g.nand = true) (h : t.prepare g = .ok p) (hplr : PlrImage p.plr) :
    ∃ fdt, p.out = (fdtPages (treeBytes fdt p.fdtSize) g.copies.toNat ++ imageArea g p).flatMap
      (Written.bytes t.encode g.pageSize) := by
  simp only [Tool.prepare, hnand, if_true] at h
  obtain ⟨⟨fdt, fdtSize⟩, -, h⟩ := bind_ok.mp h
  have hgen : t.genFdt g [] fdt fdtSize =
      (fdtPages (treeBytes fdt fdtSize) g.copies.toNat).flatMap (Written.bytes t.encode g.pageSize) :=
    writePages_length t.encode hps rfl _
  have hlen := length_flatMap_bytes t.encode hps (fdtPages (treeBytes fdt fdtSize) g.copies.toNat)
  simp only [length_treePages] at h hlen
  obtain ⟨⟨plr, fdt₁, out₁, plrEncoded⟩, hp, h⟩ := bind_ok.mp h
  rw [stopAt_ok] at hp
  obtain ⟨signPtr, -, h⟩ := bind_ok.mp h
  obtain ⟨node, -, h⟩ := bind_ok.mp h
  have hfirst : plr = p.plr → fdtSize = p.fdtSize →
      out₁ = t.genFdt g [] fdt fdtSize ++ (plrArea g (treeCount g fdtSize) plr).flatMap
        (Written.bytes t.encode g.pageSize) ∧
      plrEncoded = (plrArea g (treeCount g fdtSize) plr).length * pageSizeWithSpare g.pageSize := by
    rintro rfl -
    exact processPlr_ok hps hnand (by rw [hgen, hlen]) hp hplr
  split at h
  next =>
    obtain ⟨⟨ubt, fdt₂, out₂⟩, hu, h⟩ := bind_ok.mp h
    rw [stopAt_ok] at hu
    cases h
    obtain ⟨hout, henc⟩ := hfirst rfl rfl
    have hend : tagAlign (treeCount g fdtSize * pageSizeWithSpare g.pageSize) + plrEncoded =
        out₁.length := by
      rw [hout, List.length_append, hgen, hlen, length_flatMap_bytes t.encode hps,
        tagAlign_pages hps, henc]
    refine ⟨fdt, ?_⟩
    dsimp only
    rw [processUbt_ok hps hnand hend hu, hout, hgen, imageArea, List.flatMap_append,
      List.flatMap_append, List.append_assoc]
    rfl
  next =>
    cases h
    obtain ⟨hout, -⟩ := hfirst rfl rfl
    refine ⟨fdt, ?_⟩
    dsimp only
    rw [hout, hgen, imageArea, List.flatMap_append, List.flatMap_append]
    exact congrArg _ (List.append_nil _).symm

namespace Shipped

variable {t : Tool} {info : CryptoInfo} (S : Shipped t info)

def pages : List Written :=
  fdtPages (treeBytes S.fdt S.p.fdtSize) info.copies.toNat ++ imageArea info.target S.p

include S in
theorem target_nand : info.target.nand = true := by
  rw [CryptoInfo.target, S.nand]
  rfl

theorem output : t.doImgProcess info =
    .ok (S.pages.flatMap (Written.bytes t.encode info.target.pageSize)) := by
  obtain ⟨fdt, hout⟩ := prepare_out info.target_pageSize S.target_nand S.prepared S.plr
  have hlen : ∀ img : Mem, ((fdtPages (treeBytes img S.p.fdtSize) info.target.copies.toNat).flatMap
      (Written.bytes t.encode info.target.pageSize)).length =
      treeCount info.target S.p.fdtSize * pageSizeWithSpare info.target.pageSize := by
    intro img
    rw [length_flatMap_bytes t.encode info.target_pageSize, length_treePages]
  rw [doImgProcess_of_ok S.prepared, Tool.finish, S.signed]
  simp only [stopAt, Except.mapError, ok_bind, S.target_nand, if_true, Tool.genFdt]
  -- the new copies of the tree are as long as the old ones
  rw [writePages_zero t.encode info.target_pageSize, ← List.flatMap_def, hout, List.flatMap_append,
    List.drop_left' ((hlen fdt).trans (hlen S.fdt).symm), ← List.flatMap_append]
  rfl

end Shipped

end BismarckPreloader.Authbch
