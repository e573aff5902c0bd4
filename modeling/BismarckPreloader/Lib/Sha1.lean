import BismarckPreloader.Lib.Words

/-!
# SHA-1

The hash of FIPS 180-4, over messages of whole bytes: the padded message is cut into
blocks of 64 bytes, and `compress` folds each block into a state of five words.
`absorb` is that fold for an arbitrary block function; it also gives what is left of
a message that does not end on a block boundary.
-/

namespace BismarckPreloader

section Absorb

variable {σ α : Type} (f : σ → List α → σ) (n : Nat)

def absorb (s : σ) (xs : List α) : σ × List α :=
  if 0 < n ∧ n ≤ xs.length then absorb (f s (xs.take n)) (xs.drop n) else (s, xs)
termination_by xs.length
decreasing_by
  simp only [List.length_drop]
  omega

variable {f n} {s : σ} {xs : List α}

theorem absorb_short (h : xs.length < n) : absorb f n s xs = (s, xs) := by
  rw [absorb, if_neg (by omega)]

theorem absorb_block (hn : 0 < n) (h : xs.length = n) (ys : List α) :
    absorb f n s (xs ++ ys) = absorb f n (f s xs) ys := by
  rw [absorb, if_pos ⟨hn, by simp [h]⟩, List.take_left' h, List.drop_left' h]

theorem absorb_parts (s : σ) (xs ys : List α) :
    absorb f n s (xs ++ ys) = absorb f n (absorb f n s xs).1 ((absorb f n s xs).2 ++ ys) := by
  fun_induction absorb f n s xs with
  | case1 s xs h ih =>
    have hlen : (xs.take n).length = n := by
      rw [List.length_take]
      omega
    rw [← ih, ← absorb_block h.1 hlen, ← List.append_assoc, List.take_append_drop]
  | case2 s xs h => rfl

theorem length_absorb (hn : 0 < n) (s : σ) (xs : List α) :
    (absorb f n s xs).2.length = xs.length % n := by
  fun_induction absorb f n s xs with
  | case1 s xs h ih => rw [ih, List.length_drop, ← Nat.mod_eq_sub_mod h.2]
  | case2 s xs h => rw [Nat.mod_eq_of_lt (by omega)]

end Absorb

namespace Sha1

structure State where
  a : UInt32
  b : UInt32
  c : UInt32
  d : UInt32
  e : UInt32
  deriving DecidableEq, Repr

def initial : State := ⟨0x67452301, 0xEFCDAB89, 0x98BADCFE, 0x10325476, 0xC3D2E1F0⟩

def rotl (n x : UInt32) : UInt32 := (x <<< n) ||| (x >>> (32 - n))

def ch (x y z : UInt32) : UInt32 := (x &&& y) ^^^ (~~~x &&& z)
def parity (x y z : UInt32) : UInt32 := x ^^^ y ^^^ z
def maj (x y z : UInt32) : UInt32 := (x &&& y) ^^^ (x &&& z) ^^^ (y &&& z)

def mix (t : Nat) : UInt32 → UInt32 → UInt32 → UInt32 :=
  if t < 20 then ch else if t < 40 then parity else if t < 60 then maj else parity

def constant (t : Nat) : UInt32 :=
  if t < 20 then 0x5A827999 else if t < 40 then 0x6ED9EBA1
  else if t < 60 then 0x8F1BBCDC else 0xCA62C1D6

def blockWord (block : List UInt8) (i : Nat) : UInt32 :=
  packWord (block.getD (4 * i) 0) (block.getD (4 * i + 1) 0) (block.getD (4 * i + 2) 0)
    (block.getD (4 * i + 3) 0)

def schedule (m : Nat → UInt32) (t : Nat) : UInt32 :=
  if t < 16 then m t
  else rotl 1 (schedule m (t - 3) ^^^ schedule m (t - 8) ^^^ schedule m (t - 14) ^^^
    schedule m (t - 16))
termination_by t
decreasing_by all_goals omega

def round (w : Nat → UInt32) (s : State) (t : Nat) : State :=
  ⟨rotl 5 s.a + mix t s.b s.c s.d + s.e + constant t + w t, s.a, rotl 30 s.b, s.c, s.d⟩

def State.add (s r : State) : State := ⟨s.a + r.a, s.b + r.b, s.c + r.c, s.d + r.d, s.e + r.e⟩

def compress (s : State) (block : List UInt8) : State :=
  s.add ((List.range 80).foldl (round (schedule (blockWord block))) s)

/-- A message of `len` bytes is followed by a one bit, zeros up to 8 bytes before the
end of a block, and its length in bits. -/
def padding (len : Nat) : List UInt8 :=
  0x80 :: List.replicate ((119 - len % 64) % 64) 0 ++
    (wordBytes (UInt32.ofNat (8 * len / 2 ^ 32)) ++ wordBytes (UInt32.ofNat (8 * len)))

def State.bytes (s : State) : List UInt8 := [s.a, s.b, s.c, s.d, s.e].flatMap wordBytes

def hash (message : List UInt8) : List UInt8 :=
  (absorb compress 64 initial (message ++ padding message.length)).1.bytes

theorem length_hash (message : List UInt8) : (hash message).length = 20 := rfl

end Sha1

end BismarckPreloader
