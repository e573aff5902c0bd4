import BismarckPreloader.Lzma.RangeEnc
import BismarckPreloader.Lib.Loops
import Mathlib.Logic.Function.Basic

/-!
# The range decoder

The macros `NORMALIZE`, `IF_BIT_0`, `UPDATE_0`, `UPDATE_1` and the loop for direct bits. What
the decoder does between two bits depends on the bits so far only, so a part of it is a
`Prog`: which probability the next bit is read with, and how to go on after either bit.

An encoder that makes the calls a program asks for is followed by the decoder: each call
narrows the encoder's interval, and the decoder sees from the number it reads which part was
taken.
-/

namespace BismarckPreloader.Lzma

open RangeCoder

/-- An access that leaves its array, or a loop that does not end. -/
inductive Fault where
  | input
  | probs
  | dic
  | heap
  | loop
  deriving DecidableEq, Repr

inductive Prog (α : Type) where
  | ret (a : α)
  | bit (i : Nat) (k : Bool → Prog α)
  | direct (k : Bool → Prog α)
  | fault (f : Fault)

namespace Prog

variable {α β γ : Type}

def bind : Prog α → (α → Prog β) → Prog β
  | .ret a, f => f a
  | .bit i k, f => .bit i fun b => (k b).bind f
  | .direct k, f => .direct fun b => (k b).bind f
  | .fault e, _ => .fault e

instance : Monad Prog where
  pure := .ret
  bind := .bind

@[simp] theorem ret_bind (a : α) (f : α → Prog β) : (Prog.ret a >>= f) = f a := rfl
@[simp] theorem bit_bind (i : Nat) (k : Bool → Prog α) (f : α → Prog β) :
    (Prog.bit i k >>= f) = .bit i fun b => k b >>= f := rfl
@[simp] theorem direct_bind (k : Bool → Prog α) (f : α → Prog β) :
    (Prog.direct k >>= f) = .direct fun b => k b >>= f := rfl
theorem bind_assoc (p : Prog α) (f : α → Prog β) (g : β → Prog γ) :
    (p >>= f) >>= g = p >>= fun a => f a >>= g := by
  induction p with
  | ret a => rfl
  | bit i k ih =>
    simp only [bit_bind]
    exact congrArg (Prog.bit i) (funext ih)
  | direct k ih =>
    simp only [direct_bind]
    exact congrArg Prog.direct (funext ih)
  | fault e => rfl

/-- `GET_BIT`. -/
def getBit (i : Nat) : Prog Bool := .bit i .ret

def getDirect : Prog Bool := .direct .ret

end Prog

structure RangeDec where
  range : UInt32
  code : UInt32
  buf : List UInt8
  probs : Nat → Prob
  numProbs : Nat

namespace RangeDec

def normalize (d : RangeDec) : Except Fault RangeDec :=
  if d.range < kTopValue then
    match d.buf with
    | [] => .error .input
    | b :: buf => .ok
        { d with range := d.range <<< 8, code := (d.code <<< 8) ||| b.toUInt32, buf := buf }
  else .ok d

def getBit (d : RangeDec) (i : Nat) : Except Fault (Bool × RangeDec) :=
  if i < d.numProbs then do
    let d ← d.normalize
    let bound := (d.probs i).bound d.range
    if d.code < bound then
      pure (false,
        { d with range := bound, probs := Function.update d.probs i ((d.probs i).update false) })
    else
      pure (true,
        { d with
          range := d.range - bound
          code := d.code - bound
          probs := Function.update d.probs i ((d.probs i).update true) })
  else .error .probs

def getDirect (d : RangeDec) : Except Fault (Bool × RangeDec) := do
  let d ← d.normalize
  let range := d.range >>> 1
  let code := d.code - range
  let t := (0 : UInt32) - code >>> 31
  pure (t + 1 == 1, { d with range := range, code := code + (range &&& t) })

end RangeDec

def Prog.decode {α : Type} : Prog α → RangeDec → Except Fault (α × RangeDec)
  | .ret a, d => .ok (a, d)
  | .bit i k, d => do
    let (b, d) ← d.getBit i
    (k b).decode d
  | .direct k, d => do
    let (b, d) ← d.getDirect
    (k b).decode d
  | .fault e, _ => .error e

/-- A call of `RangeEnc_EncodeBit` with one of the encoder's probabilities, or a pass of
`RangeEnc_EncodeDirectBits`. -/
inductive Call (σ : Type) where
  | bit (slot : σ) (b : Bool)
  | direct (b : Bool)

def Call.map {σ τ : Type} (f : σ → τ) : Call σ → Call τ
  | .bit s b => .bit (f s) b
  | .direct b => .direct b

/-- The range encoder with its probabilities. -/
structure Coder (σ : Type) where
  rc : RangeEnc
  probs : σ → Prob

variable {σ : Type} [DecidableEq σ]

def Coder.call (e : Coder σ) : Call σ → Coder σ
  | .bit s b =>
    ⟨e.rc.encodeBit (e.probs s) b, Function.update e.probs s ((e.probs s).update b)⟩
  | .direct b => { e with rc := e.rc.encodeDirectBit b }

def Coder.run (e : Coder σ) (calls : List (Call σ)) : Coder σ := calls.foldl Coder.call e

@[simp] theorem Coder.run_nil (e : Coder σ) : e.run [] = e := rfl
@[simp] theorem Coder.run_cons (e : Coder σ) (c : Call σ) (calls : List (Call σ)) :
    e.run (c :: calls) = (e.call c).run calls := rfl
theorem Coder.call_spec {e : Coder σ} (h : e.rc.Ready) (c : Call σ) :
    (e.call c).rc.Ready ∧ Steps e.rc.span (e.call c).rc.span := by
  cases c with
  | bit s b =>
    obtain ⟨hn, hstep⟩ := RangeEnc.narrowBit_spec h (e.probs s) b
    exact ⟨hn.ready, .head hstep hn.steps⟩
  | direct b =>
    obtain ⟨hn, hstep⟩ := RangeEnc.narrowDirect_spec h b
    exact ⟨hn.ready, .head hstep hn.steps⟩

theorem Coder.run_spec {e : Coder σ} (h : e.rc.Ready) (calls : List (Call σ)) :
    (e.run calls).rc.Ready ∧ Steps e.rc.span (e.run calls).rc.span := by
  induction calls generalizing e with
  | nil => exact ⟨h, .refl⟩
  | cons c calls ih =>
    obtain ⟨hc, hs⟩ := Coder.call_spec h c
    obtain ⟨hr, hs'⟩ := ih hc
    exact ⟨hr, hs.trans hs'⟩

-- ---------------------------------------------------------------------------
-- Following the encoder
-- ---------------------------------------------------------------------------

/-- The program goes along with these calls to its result. -/
inductive Follows {α : Type} : Prog α → List (Call Nat) → α → Prop
  | ret (a : α) : Follows (.ret a) [] a
  | bit {i : Nat} {k : Bool → Prog α} {b : Bool} {calls : List (Call Nat)} {a : α}
      (h : Follows (k b) calls a) : Follows (.bit i k) (.bit i b :: calls) a
  | direct {k : Bool → Prog α} {b : Bool} {calls : List (Call Nat)} {a : α}
      (h : Follows (k b) calls a) : Follows (.direct k) (.direct b :: calls) a

structure Layout (σ : Type) where
  index : σ → Nat
  valid : σ → Prop
  size : Nat
  lt : ∀ {s}, valid s → index s < size
  inj : ∀ {s t}, valid s → valid t → index s = index t → s = t

def Call.Valid (L : Layout σ) : Call σ → Prop
  | .bit s _ => L.valid s
  | .direct _ => True

/-- The decoder is where the encoder was. It widens its interval only before the next bit. -/
structure Synced (L : Layout σ) (text : List UInt8) (e : Coder σ) (d : RangeDec) : Prop where
  ready : e.rc.Ready
  reads : ∃ dn, d.normalize = .ok dn ∧
    Reads text e.rc.span dn.range.toNat dn.code.toNat dn.buf
  probs : ∀ s, L.valid s → d.probs (L.index s) = e.probs s
  size : d.numProbs = L.size

variable {L : Layout σ} {text : List UInt8} {e : Coder σ} {d : RangeDec}

theorem shift_or_toNat {code : UInt32} (h : code.toNat < 2 ^ 24) (b : UInt8) :
    ((code <<< 8) ||| b.toUInt32).toNat = 256 * code.toNat + b.toNat := by
  have hb := b.toNat_lt
  rw [UInt32.toNat_or, UInt32.toNat_shiftLeft, Nat.shiftLeft_eq, UInt8.toNat_toUInt32,
    show UInt32.toNat 8 % 32 = 8 from rfl, Nat.mod_eq_of_lt (by omega), Nat.mul_comm,
    ← Nat.two_pow_add_eq_or_of_lt hb]

theorem normalize_reads {p : RangeEnc} (hn : p.Narrowed)
    (hr : Reads text p.span d.range.toNat d.code.toNat d.buf)
    (hh : p.normalize.span.Holds text) :
    ∃ dn, d.normalize = .ok dn ∧
      Reads text p.normalize.span dn.range.toNat dn.code.toNat dn.buf := by
  have hrange : d.range = p.range := UInt32.toNat_inj.mp hr.range
  by_cases htop : p.range < kTopValue
  · obtain ⟨-, hspan⟩ := hn.shifted htop
    rw [hspan] at hh ⊢
    have hlt := hr.code_lt (Step.shift.holds hh)
    obtain ⟨digit, more, hbuf, hreads⟩ := hr.shift hh
    rw [← hrange] at htop
    have hsmall : d.range.toNat < 2 ^ 24 := htop
    refine ⟨_, by rw [RangeDec.normalize, if_pos htop, hbuf], ?_⟩
    have hshift : (d.range <<< 8).toNat = 256 * d.range.toNat := by
      rw [UInt32.toNat_shiftLeft, Nat.shiftLeft_eq, show UInt32.toNat 8 % 32 = 8 from rfl]
      omega
    dsimp only
    rw [hshift, shift_or_toNat (by omega)]
    exact hreads
  · refine ⟨d, by rw [RangeDec.normalize, if_neg (hrange ▸ htop)], ?_⟩
    rw [RangeEnc.normalize, if_neg htop]
    exact hr

-- The sign bit of `code - range` tells which half was taken.

theorem sign_low {code range : UInt32} (h : code.toNat < range.toNat)
    (hsmall : range.toNat < 2 ^ 31) : (0 : UInt32) - (code - range) >>> 31 = -1 := by
  have hsub : (code - range).toNat = 2 ^ 32 - range.toNat + code.toNat := by
    rw [UInt32.toNat_sub]
    omega
  have hone : (code - range) >>> 31 = 1 := by
    rw [← UInt32.toNat_inj, UInt32.toNat_shiftRight, hsub, Nat.shiftRight_eq_div_pow,
      show UInt32.toNat 31 % 32 = 31 from rfl, UInt32.toNat_one]
    omega
  rw [hone]
  rfl

theorem sign_high {code range : UInt32} (h : range.toNat ≤ code.toNat)
    (hsmall : code.toNat < range.toNat + 2 ^ 31) : (0 : UInt32) - (code - range) >>> 31 = 0 := by
  have hsub : (code - range).toNat = code.toNat - range.toNat :=
    UInt32.toNat_sub_of_le _ _ (UInt32.le_iff_toNat_le.mpr h)
  have hzero : (code - range) >>> 31 = 0 := by
    rw [← UInt32.toNat_inj, UInt32.toNat_shiftRight, hsub, Nat.shiftRight_eq_div_pow,
      show UInt32.toNat 31 % 32 = 31 from rfl, UInt32.toNat_zero]
    omega
  rw [hzero]
  rfl

theorem normalize_probs {dn : RangeDec} (h : d.normalize = .ok dn) :
    dn.probs = d.probs ∧ dn.numProbs = d.numProbs := by
  rw [RangeDec.normalize] at h
  split at h
  · split at h
    · cases h
    · cases h
      exact ⟨rfl, rfl⟩
  · cases h
    exact ⟨rfl, rfl⟩

theorem probs_update {probs : Nat → Prob} (h : ∀ t, L.valid t → probs (L.index t) = e.probs t)
    {s : σ} (hs : L.valid s) (q : Prob) :
    ∀ t, L.valid t → Function.update probs (L.index s) q (L.index t) =
      Function.update e.probs s q t := by
  intro t ht
  by_cases heq : t = s
  · subst heq
    rw [Function.update_self, Function.update_self]
  · have hne : L.index t ≠ L.index s := fun hi => heq (L.inj ht hs hi)
    rw [Function.update_of_ne hne, Function.update_of_ne heq, h t ht]

theorem getBit_synced (h : Synced L text e d) {s : σ} (hs : L.valid s) {b : Bool}
    (hh : (e.call (.bit s b)).rc.span.Holds text) :
    ∃ d', d.getBit (L.index s) = .ok (b, d') ∧ Synced L text (e.call (.bit s b)) d' := by
  obtain ⟨dn, hdn, hreads⟩ := h.reads
  obtain ⟨hprobs, hsize⟩ := normalize_probs hdn
  have hlt : L.index s < d.numProbs := h.size ▸ L.lt hs
  have hrange : dn.range = e.rc.range := UInt32.toNat_inj.mp hreads.range
  have hprob : dn.probs (L.index s) = e.probs s := by rw [hprobs, h.probs s hs]
  have hupd := probs_update (fun t ht => (congrFun hprobs _).trans (h.probs t ht)) hs
  cases b with
  | false =>
    obtain ⟨hn, hspan⟩ := RangeEnc.narrowBit_zero h.ready (e.probs s)
    have hhn : (e.rc.narrowBit (e.probs s) false).span.Holds text := Steps.holds hn.steps hh
    obtain ⟨-, hr⟩ := hreads.narrow (hspan ▸ hhn)
    have hcode := hr.code_lt (hspan ▸ hhn)
    rw [Nat.sub_zero] at hcode hr
    rw [← hspan] at hr
    refine ⟨{ dn with
      range := (e.probs s).bound e.rc.range
      probs := Function.update dn.probs (L.index s) ((e.probs s).update false) }, ?_, ?_⟩
    · rw [RangeDec.getBit, if_pos hlt, hdn, ok_bind, hprob, hrange]
      rw [if_pos (UInt32.lt_iff_toNat_lt.mpr hcode)]
      rfl
    · exact ⟨hn.ready, normalize_reads hn hr hh, hupd _, hsize.trans h.size⟩
  | true =>
    obtain ⟨hn, hspan⟩ := RangeEnc.narrowBit_one h.ready (e.probs s)
    have hhn : (e.rc.narrowBit (e.probs s) true).span.Holds text := Steps.holds hn.steps hh
    obtain ⟨hle, hr⟩ := hreads.narrow (hspan ▸ hhn)
    rw [← hspan] at hr
    have hsub : (dn.code - (e.probs s).bound e.rc.range).toNat =
        dn.code.toNat - ((e.probs s).bound e.rc.range).toNat :=
      UInt32.toNat_sub_of_le _ _ (UInt32.le_iff_toNat_le.mpr hle)
    rw [← hsub] at hr
    refine ⟨{ dn with
      range := e.rc.range - (e.probs s).bound e.rc.range
      code := dn.code - (e.probs s).bound e.rc.range
      probs := Function.update dn.probs (L.index s) ((e.probs s).update true) }, ?_, ?_⟩
    · rw [RangeDec.getBit, if_pos hlt, hdn, ok_bind, hprob, hrange]
      rw [if_neg (fun hc => absurd (UInt32.lt_iff_toNat_lt.mp hc) (Nat.not_lt.mpr hle))]
      rfl
    · exact ⟨hn.ready, normalize_reads hn hr hh, hupd _, hsize.trans h.size⟩

theorem getDirect_synced (h : Synced L text e d) {b : Bool}
    (hh : (e.call (.direct b)).rc.span.Holds text) :
    ∃ d', d.getDirect = .ok (b, d') ∧ Synced L text (e.call (.direct b)) d' := by
  obtain ⟨dn, hdn, hreads⟩ := h.reads
  obtain ⟨hprobs, hsize⟩ := normalize_probs hdn
  have hrange : dn.range = e.rc.range := UInt32.toNat_inj.mp hreads.range
  have hhalf := RangeEnc.half_toNat e.rc.range
  have hmax := e.rc.range.toNat_lt
  have hagree : ∀ t, L.valid t → dn.probs (L.index t) = e.probs t :=
    fun t ht => (congrFun hprobs _).trans (h.probs t ht)
  cases b with
  | false =>
    obtain ⟨hn, hspan⟩ := RangeEnc.narrowDirect_zero h.ready
    have hhn : (e.rc.narrowDirect false).span.Holds text := Steps.holds hn.steps hh
    obtain ⟨-, hr⟩ := hreads.narrow (hspan ▸ hhn)
    have hcode := hr.code_lt (hspan ▸ hhn)
    rw [Nat.sub_zero] at hcode hr
    rw [← hspan] at hr
    refine ⟨{ dn with range := e.rc.range >>> 1 }, ?_, ?_⟩
    · have hsign := sign_low hcode (by omega)
      simp only [RangeDec.getDirect, hdn, ok_bind, hrange, hsign]
      simp
      rfl
    · exact ⟨hn.ready, normalize_reads hn hr hh, hagree, hsize.trans h.size⟩
  | true =>
    obtain ⟨hn, hspan⟩ := RangeEnc.narrowDirect_one h.ready
    have hhn : (e.rc.narrowDirect true).span.Holds text := Steps.holds hn.steps hh
    obtain ⟨hle, hr⟩ := hreads.narrow (hspan ▸ hhn)
    have hcode := hr.code_lt (hspan ▸ hhn)
    rw [← hspan] at hr
    have hsub : (dn.code - e.rc.range >>> 1).toNat = dn.code.toNat - (e.rc.range >>> 1).toNat :=
      UInt32.toNat_sub_of_le _ _ (UInt32.le_iff_toNat_le.mpr hle)
    rw [← hsub] at hr
    refine ⟨{ dn with range := e.rc.range >>> 1, code := dn.code - e.rc.range >>> 1 }, ?_, ?_⟩
    · have hsign := sign_high hle (by omega)
      simp only [RangeDec.getDirect, hdn, ok_bind, hrange, hsign]
      simp
      rfl
    · exact ⟨hn.ready, normalize_reads hn hr hh, hagree, hsize.trans h.size⟩

theorem Follows.decode {α : Type} {p : Prog α} {a : α} {calls : List (Call σ)}
    (hp : Follows p (calls.map (Call.map L.index)) a) (hv : ∀ x ∈ calls, x.Valid L)
    (h : Synced L text e d) (hh : (e.run calls).rc.span.Holds text) :
    ∃ d', p.decode d = .ok (a, d') ∧ Synced L text (e.run calls) d' := by
  induction calls generalizing p e d with
  | nil =>
    cases hp
    exact ⟨d, rfl, h⟩
  | cons x calls ih =>
    obtain ⟨hx, hrest⟩ := List.forall_mem_cons.mp hv
    have hready := (Coder.call_spec h.ready x).1
    have hfirst : (e.call x).rc.span.Holds text := Steps.holds (Coder.run_spec hready calls).2 hh
    cases x with
    | bit s b =>
      cases hp with
      | bit hk =>
        obtain ⟨d', hd', hsync⟩ := getBit_synced h hx hfirst
        obtain ⟨d'', hd'', hsync'⟩ := ih hk hrest hsync hh
        exact ⟨d'', by rw [Prog.decode, hd', ok_bind]; exact hd'', hsync'⟩
    | direct b =>
      cases hp with
      | direct hk =>
        obtain ⟨d', hd', hsync⟩ := getDirect_synced h hfirst
        obtain ⟨d'', hd'', hsync'⟩ := ih hk hrest hsync hh
        exact ⟨d'', by rw [Prog.decode, hd', ok_bind]; exact hd'', hsync'⟩

end BismarckPreloader.Lzma
