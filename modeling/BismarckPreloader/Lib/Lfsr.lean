import Mathlib.Algebra.CharP.Two
import Mathlib.Algebra.Field.ZMod
import Mathlib.Algebra.Polynomial.Degree.Operations
import Mathlib.Data.ZMod.Basic
import Mathlib.Tactic.LinearCombination

/-!
# Division by a shift register

Polynomials over GF(2) as lists of bits, and the shift register with feedback
that divides by a monic one. `lowPoly` reads a list from its constant term up, as
a register holds it, and `msbPoly` from its leading term down, as bits are sent.

The rule is `dvd_shiftAll`: a message followed by what the register holds after
it is a multiple of the generator.
-/

namespace BismarckPreloader.Lfsr

open Polynomial

def bit (b : Bool) : ZMod 2 := if b then 1 else 0

@[simp] theorem bit_false : bit false = 0 := rfl
@[simp] theorem bit_true : bit true = 1 := rfl

theorem bit_xor (a b : Bool) : bit (a ^^ b) = bit a + bit b := by
  cases a <;> cases b <;> rfl

theorem bit_and (a b : Bool) : bit (a && b) = bit b * bit a := by
  cases a <;> cases b <;> rfl

noncomputable def lowPoly : List Bool → (ZMod 2)[X]
  | [] => 0
  | b :: l => C (bit b) + X * lowPoly l

noncomputable def msbPoly : List Bool → (ZMod 2)[X]
  | [] => 0
  | b :: l => C (bit b) * X ^ l.length + msbPoly l

@[simp] theorem lowPoly_nil : lowPoly [] = 0 := rfl
@[simp] theorem lowPoly_cons (b : Bool) (l : List Bool) :
    lowPoly (b :: l) = C (bit b) + X * lowPoly l := rfl
@[simp] theorem msbPoly_nil : msbPoly [] = 0 := rfl
@[simp] theorem msbPoly_cons (b : Bool) (l : List Bool) :
    msbPoly (b :: l) = C (bit b) * X ^ l.length + msbPoly l := rfl

theorem lowPoly_replicate_false (n : Nat) : lowPoly (List.replicate n false) = 0 := by
  induction n with
  | zero => rfl
  | succ n ih => simp [List.replicate_succ, ih]

theorem lowPoly_append (l l' : List Bool) :
    lowPoly (l ++ l') = lowPoly l + X ^ l.length * lowPoly l' := by
  induction l with
  | nil => simp
  | cons b l ih =>
    simp only [List.cons_append, lowPoly_cons, ih, List.length_cons]
    ring

theorem msbPoly_append (l l' : List Bool) :
    msbPoly (l ++ l') = msbPoly l * X ^ l'.length + msbPoly l' := by
  induction l with
  | nil => simp
  | cons b l ih =>
    simp only [List.cons_append, msbPoly_cons, ih, List.length_append]
    ring

theorem msbPoly_reverse (l : List Bool) : msbPoly l.reverse = lowPoly l := by
  induction l with
  | nil => rfl
  | cons b l ih =>
    simp only [List.reverse_cons, msbPoly_append, ih, lowPoly_cons, msbPoly_cons, msbPoly_nil,
      List.length_cons, List.length_nil]
    ring

theorem lowPoly_xor : ∀ l l' : List Bool, l.length = l'.length →
    lowPoly (List.zipWith (· ^^ ·) l l') = lowPoly l + lowPoly l'
  | [], [], _ => by simp
  | a :: l, b :: l', h => by
    simp only [List.zipWith_cons_cons, lowPoly_cons, bit_xor, C_add,
      lowPoly_xor l l' (Nat.succ.inj h)]
    ring

theorem lowPoly_and (f : Bool) (l : List Bool) :
    lowPoly (l.map (· && f)) = C (bit f) * lowPoly l := by
  induction l with
  | nil => simp
  | cons b l ih =>
    simp only [List.map_cons, lowPoly_cons, bit_and, C_mul, ih]
    ring

theorem degree_lowPoly_lt (l : List Bool) : (lowPoly l).degree < l.length := by
  induction l with
  | nil => simp [lowPoly]
  | cons b l ih =>
    refine lt_of_le_of_lt (degree_add_le _ _) (max_lt ?_ ?_)
    · exact lt_of_le_of_lt degree_C_le (by exact_mod_cast Nat.succ_pos l.length)
    · rw [degree_mul, degree_X, add_comm, List.length_cons, Nat.cast_add, Nat.cast_one]
      exact (WithBot.add_lt_add_iff_right (by decide)).mpr ih

-- ---------------------------------------------------------------------------
-- The register
-- ---------------------------------------------------------------------------

/-- A generator of degree `taps.length`; its leading coefficient is not written. -/
structure Generator where
  taps : List Bool

noncomputable def Generator.poly (g : Generator) : (ZMod 2)[X] := lowPoly (g.taps ++ [true])

theorem Generator.poly_eq (g : Generator) : g.poly = lowPoly g.taps + X ^ g.taps.length := by
  rw [Generator.poly, lowPoly_append]
  simp

theorem natDegree_poly (g : Generator) : g.poly.natDegree = g.taps.length := by
  rw [g.poly_eq, natDegree_add_eq_right_of_degree_lt, natDegree_X_pow]
  rw [degree_X_pow]
  exact degree_lowPoly_lt g.taps

def feedback (r : List Bool) (b : Bool) : Bool := b ^^ r.getLastD false

def Generator.shift (g : Generator) (r : List Bool) (b : Bool) : List Bool :=
  List.zipWith (· ^^ ·) (false :: r.dropLast) (g.taps.map (· && feedback r b))

def Generator.shiftAll (g : Generator) (r bs : List Bool) : List Bool := bs.foldl g.shift r

variable {g : Generator} {r : List Bool} {b : Bool}

theorem length_shift (hr : r.length = g.taps.length) (hpos : 0 < g.taps.length) :
    (g.shift r b).length = g.taps.length := by
  simp only [Generator.shift, List.length_zipWith, List.length_cons, List.length_dropLast,
    List.length_map]
  omega

theorem length_shiftAll (hr : r.length = g.taps.length) (hpos : 0 < g.taps.length)
    (bs : List Bool) : (g.shiftAll r bs).length = g.taps.length := by
  induction bs generalizing r with
  | nil => exact hr
  | cons b bs ih => exact ih (length_shift hr hpos)

theorem getD_shift (hr : r.length = g.taps.length) (hi : i < g.taps.length) :
    (g.shift r b).getD i false =
      ((if i = 0 then false else r.getD (i - 1) false) ^^
        (g.taps.getD i false && feedback r b)) := by
  have htap : (g.taps.map (· && feedback r b))[i]? =
      some (g.taps.getD i false && feedback r b) := by
    simp [hi]
  have hreg : (false :: r.dropLast)[i]? = some (if i = 0 then false else r.getD (i - 1) false) := by
    cases i with
    | zero => rfl
    | succ i =>
      have hlt : i < r.length - 1 := by omega
      simp [hlt, List.getElem?_eq_getElem (show i < r.length by omega)]
  rw [Generator.shift, List.getD_eq_getElem?_getD, List.getElem?_zipWith, htap, hreg]
  rfl

theorem lowPoly_shift (hr : r.length = g.taps.length) (hpos : 0 < g.taps.length) (b : Bool) :
    lowPoly (g.shift r b) = X * lowPoly r + C (bit b) * X ^ g.taps.length +
      C (bit (feedback r b)) * g.poly := by
  have hne : r ≠ [] := by
    rintro rfl
    simp at hr
    omega
  have htop : lowPoly r =
      lowPoly r.dropLast + X ^ r.dropLast.length * C (bit (r.getLastD false)) := by
    conv_lhs => rw [← List.dropLast_append_getLast hne, lowPoly_append]
    rw [List.getLastD_eq_getLast?, List.getLast?_eq_getLast_of_ne_nil hne]
    simp
  have hlen : r.dropLast.length + 1 = g.taps.length := by
    rw [List.length_dropLast]
    omega
  have htwo : (2 : (ZMod 2)[X]) = 0 := CharTwo.two_eq_zero
  rw [Generator.shift, lowPoly_xor _ _ (by simp; omega), lowPoly_and, lowPoly_cons, htop, g.poly_eq,
    ← hlen, feedback, bit_xor, C_add, bit_false, C_0]
  -- the two sides differ by twice the bits that left the register
  linear_combination (-(C (bit b) + C (bit (r.getLastD false))) *
    X ^ (r.dropLast.length + 1)) * htwo

/-- A message and the register after it, as one word, are a multiple of the
generator, and stay one with every further bit. -/
theorem dvd_shift (hr : r.length = g.taps.length) (hpos : 0 < g.taps.length) (m : List Bool)
    (h : g.poly ∣ msbPoly m * X ^ g.taps.length + lowPoly r) (b : Bool) :
    g.poly ∣ msbPoly (m ++ [b]) * X ^ g.taps.length + lowPoly (g.shift r b) := by
  obtain ⟨q, hq⟩ := h
  refine ⟨X * q + C (bit (feedback r b)), ?_⟩
  have htwo : (2 : (ZMod 2)[X]) = 0 := CharTwo.two_eq_zero
  rw [lowPoly_shift hr hpos, msbPoly_append]
  simp only [msbPoly_cons, msbPoly_nil, List.length_cons, List.length_nil]
  linear_combination X * hq + C (bit b) * X ^ g.taps.length * htwo

theorem dvd_shiftAll (hr : r.length = g.taps.length) (hpos : 0 < g.taps.length) (m bs : List Bool)
    (h : g.poly ∣ msbPoly m * X ^ g.taps.length + lowPoly r) :
    g.poly ∣ msbPoly (m ++ bs) * X ^ g.taps.length + lowPoly (g.shiftAll r bs) := by
  induction bs generalizing r m with
  | nil =>
    rw [List.append_nil]
    exact h
  | cons b bs ih =>
    rw [List.append_cons]
    exact ih (length_shift hr hpos) (m ++ [b]) (dvd_shift hr hpos m h b)

theorem dvd_codeword (hpos : 0 < g.taps.length) (m : List Bool) :
    g.poly ∣ msbPoly
      (m ++ (g.shiftAll (List.replicate g.taps.length false) m).reverse) := by
  have hr : (List.replicate g.taps.length false).length = g.taps.length := List.length_replicate
  have h := dvd_shiftAll hr hpos [] m (by simp [lowPoly_replicate_false])
  rw [List.nil_append] at h
  rw [msbPoly_append, msbPoly_reverse, List.length_reverse, length_shiftAll hr hpos]
  exact h

end BismarckPreloader.Lfsr
