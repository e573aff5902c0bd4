import BismarckPreloader.Lib.Loops
import Mathlib.Data.List.TakeWhile

/-!
# Lines and command tables of the CLI

The buffer of a command line is the list of its bytes. A string scan of `cli_parser.c` is
`scan`: it runs to the first byte at which its condition fails, and faults if there is none in
the buffer. `Holds buf p t` says that the string at `p` is `t`.

The tables are those the linker collects: nodes with a name, a parent and a function,
additional parents of nodes, and tails. A null parent is `none`.
-/

namespace BismarckPreloader.Cli

inductive Fault where
  | outside
  deriving DecidableEq

def space : UInt8 := 0x20

-- ---------------------------------------------------------------------------
-- Scans
-- ---------------------------------------------------------------------------

def scan (c : UInt8 → Bool) : List UInt8 → Except Fault Nat
  | [] => .error .outside
  | x :: xs => if c x then (scan c xs).map (· + 1) else .ok 0

theorem scan_append {c : UInt8 → Bool} {xs ys : List UInt8} {y : UInt8} (hx : ∀ x ∈ xs, c x = true)
    (hy : c y = false) : scan c (xs ++ y :: ys) = .ok xs.length := by
  induction xs with
  | nil => simp [scan, hy]
  | cons x xs ih =>
    rw [List.cons_append, scan, if_pos (hx x List.mem_cons_self),
      ih fun z hz => hx z (List.mem_cons_of_mem x hz)]
    rfl

def store {α : Type} (buf : List α) (i : Nat) (c : α) : Except Fault (List α) :=
  if i < buf.length then .ok (buf.set i c) else .error .outside

theorem store_ok {α : Type} {buf : List α} {i : Nat} (h : i < buf.length) (c : α) :
    store buf i c = .ok (buf.set i c) := if_pos h

def Holds (buf : List UInt8) (p : Nat) (t : List UInt8) : Prop :=
  (∀ c ∈ t, c ≠ 0) ∧ ∃ rest, buf.drop p = t ++ 0 :: rest

theorem Holds.append {buf a b : List UInt8} {p : Nat} (h : Holds buf p (a ++ b)) :
    Holds buf (p + a.length) b := by
  obtain ⟨hne, rest, hrest⟩ := h
  refine ⟨fun c hc => hne c (List.mem_append_right a hc), rest, ?_⟩
  rw [← List.drop_drop, hrest, List.append_assoc, List.drop_left]

theorem Holds.getElem? {buf t : List UInt8} {p : Nat} (h : Holds buf p t) {i : Nat}
    (hi : i ≤ t.length) : buf[p + i]? = (t ++ [0])[i]? := by
  obtain ⟨-, rest, hrest⟩ := h
  rw [← List.getElem?_drop, hrest, ← List.singleton_append, ← List.append_assoc,
    List.getElem?_append_left (by simp; omega)]

def isToken (c : UInt8) : Bool := c != space && c != 0

/-- `_cli_first_token`: the start of the next token, if there is one, and where it ends. -/
def firstToken (buf : List UInt8) (p : Nat) : Except Fault (Option Nat × Nat) := do
  let n ← scan (fun c => c == space && c != 0) (buf.drop p)
  match buf[p + n]? with
  | none => .error .outside
  | some c =>
    if c ≠ 0 then
      let m ← scan isToken (buf.drop (p + n))
      pure (some (p + n), p + n + m)
    else pure (none, p + n)

def Token (tok : List UInt8) : Prop := tok ≠ [] ∧ ∀ c ∈ tok, c ≠ space

theorem firstToken_none {buf sp : List UInt8} {p : Nat} (h : Holds buf p sp)
    (hsp : ∀ c ∈ sp, c = space) : firstToken buf p = .ok (none, p + sp.length) := by
  obtain ⟨hne, rest, hrest⟩ := h
  have hscan : scan (fun c => c == space && c != 0) (buf.drop p) = .ok sp.length := by
    rw [hrest]
    refine scan_append (fun c hc => ?_) (by decide)
    rw [hsp c hc]
    decide
  have hget : buf[p + sp.length]? = some 0 := by
    rw [← List.getElem?_drop, hrest, List.getElem?_append_right (Nat.le_refl _), Nat.sub_self]
    rfl
  rw [firstToken, hscan, ok_bind, hget]
  rfl

theorem firstToken_some {buf sp tok r : List UInt8} {p : Nat} (h : Holds buf p (sp ++ tok ++ r))
    (hsp : ∀ c ∈ sp, c = space) (ht : Token tok) (hr : r.head? = none ∨ r.head? = some space) :
    firstToken buf p = .ok (some (p + sp.length), p + sp.length + tok.length) := by
  have htok : Holds buf (p + sp.length) (tok ++ r) := by
    rw [List.append_assoc] at h
    exact h.append
  obtain ⟨hne, rest, hrest⟩ := h
  obtain ⟨x, tok', rfl⟩ := List.exists_cons_of_ne_nil ht.1
  have hx0 : x ≠ 0 := hne x (by simp)
  have hxs : x ≠ space := ht.2 x List.mem_cons_self
  have hscan : scan (fun c => c == space && c != 0) (buf.drop p) = .ok sp.length := by
    rw [hrest, List.append_assoc, List.append_assoc]
    refine scan_append (fun c hc => ?_) (by simp [hxs])
    rw [hsp c hc]
    decide
  have hget : buf[p + sp.length]? = some x := by
    have := htok.getElem? (i := 0) (Nat.zero_le _)
    simpa using this
  have hend : scan isToken (buf.drop (p + sp.length)) = .ok (x :: tok').length := by
    obtain ⟨hne', rest', hrest'⟩ := htok
    have hall : ∀ c ∈ x :: tok', isToken c = true := by
      intro c hc
      simp [isToken, ht.2 c hc, hne' c (List.mem_append_left r hc)]
    rw [hrest', List.append_assoc]
    rcases r with _ | ⟨y, r'⟩
    · exact scan_append hall (by decide)
    · have hy : y = space := by simpa using hr
      subst hy
      exact scan_append hall (by decide)
  rw [firstToken, hscan, ok_bind, hget]
  dsimp only
  rw [if_pos hx0, hend]
  rfl

def Name : Type := { n : List UInt8 // ∀ c ∈ n, c ≠ 0 ∧ c ≠ space }

/-- `cli_strcmp` of the string at the head of `a` and the name `b`, ended by a blank. -/
def cliStrcmp : List UInt8 → List UInt8 → Except Fault Int
  | [], _ => .error .outside
  | x :: _, [] => if x = 0 ∨ x = space then .ok 0 else .ok (x.toNat : Int)
  | x :: a, y :: b =>
    if x = y then
      if x = 0 ∨ x = space then .ok 0 else cliStrcmp a b
    else if (x = 0 ∨ x = space) ∧ (y = 0 ∨ y = space) then .ok 0
    else .ok ((x.toNat : Int) - y.toNat)

theorem cliStrcmp_spec {tok a name : List UInt8} {x : UInt8}
    (htok : ∀ c ∈ tok, c ≠ 0 ∧ c ≠ space) (hname : ∀ c ∈ name, c ≠ 0 ∧ c ≠ space)
    (hx : x = 0 ∨ x = space) :
    ∃ r, cliStrcmp (tok ++ x :: a) name = .ok r ∧ (r = 0 ↔ tok = name) := by
  induction tok generalizing name with
  | nil =>
    cases name with
    | nil => exact ⟨0, by simp [cliStrcmp, hx], by simp⟩
    | cons y b =>
      have hy := hname y List.mem_cons_self
      have hxy : x ≠ y := by
        rintro rfl
        exact hx.elim hy.1 hy.2
      refine ⟨(x.toNat : Int) - y.toNat, by simp [cliStrcmp, hxy, hy], ?_⟩
      have : x.toNat ≠ y.toNat := fun h => hxy (UInt8.toNat_inj.mp h)
      simp only [reduceCtorEq, iff_false]
      omega
  | cons z tok ih =>
    have hz := htok z List.mem_cons_self
    cases name with
    | nil =>
      refine ⟨(z.toNat : Int), by simp [cliStrcmp, hz], ?_⟩
      have : z.toNat ≠ 0 := fun h => hz.1 (UInt8.toNat_inj.mp h)
      simp only [reduceCtorEq, iff_false]
      omega
    | cons y b =>
      by_cases hzy : z = y
      · subst hzy
        obtain ⟨r, hr, hiff⟩ := ih (fun c hc => htok c (List.mem_cons_of_mem z hc))
          (fun c hc => hname c (List.mem_cons_of_mem z hc))
        refine ⟨r, ?_, by simpa using hiff⟩
        rw [List.cons_append, cliStrcmp, if_pos rfl, if_neg (by simp [hz]), hr]
      · refine ⟨(z.toNat : Int) - y.toNat, by simp [cliStrcmp, hzy, hz], ?_⟩
        have : z.toNat ≠ y.toNat := fun h => hzy (UInt8.toNat_inj.mp h)
        simp only [List.cons.injEq, hzy, false_and, iff_false]
        omega

-- ---------------------------------------------------------------------------
-- Tables
-- ---------------------------------------------------------------------------

structure Node (φ : Type) (n : Nat) where
  name : Name
  parent : Option (Fin n)
  func : Option φ

structure MpNode (n : Nat) where
  me : Fin n
  oparent : Option (Fin n)

structure Tail (υ : Type) (n : Nat) where
  name : Name
  parent : Option (Fin n)
  user : Option υ

structure Tables (φ υ : Type) where
  size : Nat
  node : Fin size → Node φ size
  mpNodes : List (MpNode size)
  tails : List (Tail υ size)

def findName {α : Type} (a : List UInt8) (sel : α → Bool) (name : α → Name) :
    List α → Except Fault (Option α)
  | [] => .ok none
  | x :: xs =>
    if sel x then do
      let r ← cliStrcmp a (name x).1
      if r = 0 then pure (some x) else findName a sel name xs
    else findName a sel name xs

def TokenAt (buf : List UInt8) (p : Nat) (tok : List UInt8) : Prop :=
  (∀ c ∈ tok, c ≠ 0 ∧ c ≠ space) ∧
    ∃ x rest, (x = 0 ∨ x = space) ∧ buf.drop p = tok ++ x :: rest

theorem findName_spec {α : Type} {buf tok : List UInt8} {p : Nat} (h : TokenAt buf p tok)
    (sel : α → Bool) (name : α → Name) (xs : List α) :
    findName (buf.drop p) sel name xs = .ok (xs.find? fun x => sel x && (name x).1 == tok) := by
  obtain ⟨htok, x, rest, hx, hbuf⟩ := h
  rw [hbuf]
  induction xs with
  | nil => rfl
  | cons y ys ih =>
    rw [findName, List.find?_cons, ih]
    by_cases hsel : sel y = true
    · obtain ⟨r, hr, hiff⟩ := cliStrcmp_spec (a := rest) htok (name y).2 hx
      rw [if_pos hsel, hr, ok_bind, hsel, Bool.true_and]
      by_cases hn : tok = (name y).1
      · rw [if_pos (hiff.mpr hn), hn, beq_self_eq_true]
        rfl
      · rw [if_neg (fun h => hn (hiff.mp h)), beq_eq_false_iff_ne.mpr (Ne.symm hn)]
    · rw [if_neg hsel, Bool.eq_false_iff.mpr hsel, Bool.false_and]

namespace Tables

variable {φ υ : Type} (T : Tables φ υ)

def matchNodeName (buf : List UInt8) (parent : Option (Fin T.size)) (name : Nat) :
    Except Fault (Option (Fin T.size)) := do
  let b1 ← findName (buf.drop name) (fun b => parent == (T.node b).parent) (fun b => (T.node b).name)
    (List.finRange T.size)
  match b1 with
  | some b => pure (some b)
  | none =>
    let b2 ← findName (buf.drop name) (fun b => parent == b.oparent) (fun b => (T.node b.me).name)
      T.mpNodes
    pure (b2.map MpNode.me)

def matchTailName (buf : List UInt8) (parent : Option (Fin T.size)) (name : Nat) :
    Except Fault (Option (Tail υ T.size)) :=
  findName (buf.drop name) (fun b => parent == b.parent) Tail.name T.tails

def child (parent : Option (Fin T.size)) (tok : List UInt8) : Option (Fin T.size) :=
  ((List.finRange T.size).find? fun b =>
      parent == (T.node b).parent && (T.node b).name.1 == tok).or
    ((T.mpNodes.find? fun b => parent == b.oparent && (T.node b.me).name.1 == tok).map MpNode.me)

def tail (parent : Option (Fin T.size)) (tok : List UInt8) : Option (Tail υ T.size) :=
  T.tails.find? fun b => parent == b.parent && b.name.1 == tok

variable {T} {buf tok : List UInt8} {p : Nat}

theorem matchNodeName_spec (h : TokenAt buf p tok) (parent : Option (Fin T.size)) :
    T.matchNodeName buf parent p = .ok (T.child parent tok) := by
  rw [matchNodeName, findName_spec h, ok_bind, child]
  cases hb : (List.finRange T.size).find? fun b =>
      parent == (T.node b).parent && (T.node b).name.1 == tok with
  | some b => rfl
  | none =>
    dsimp only
    rw [findName_spec h, ok_bind, Option.none_or]
    rfl

theorem matchTailName_spec (h : TokenAt buf p tok) (parent : Option (Fin T.size)) :
    T.matchTailName buf parent p = .ok (T.tail parent tok) := findName_spec h _ _ _

end Tables

-- ---------------------------------------------------------------------------
-- The tokens of a line
-- ---------------------------------------------------------------------------

def tokensFrom (cur : List UInt8) : List UInt8 → List (List UInt8)
  | [] => if cur = [] then [] else [cur]
  | c :: cs =>
    if c = space then
      if cur = [] then tokensFrom [] cs else cur :: tokensFrom [] cs
    else tokensFrom (cur ++ [c]) cs

def tokens (t : List UInt8) : List (List UInt8) := tokensFrom [] t

@[simp] theorem tokens_nil : tokens [] = [] := rfl

theorem tokens_space (t : List UInt8) : tokens (space :: t) = tokens t := by
  rw [tokens, tokensFrom, if_pos rfl, if_pos rfl]
  rfl

theorem tokens_spaces {sp : List UInt8} (hsp : ∀ c ∈ sp, c = space) (t : List UInt8) :
    tokens (sp ++ t) = tokens t := by
  induction sp with
  | nil => rfl
  | cons c sp ih =>
    rw [hsp c List.mem_cons_self, List.cons_append, tokens_space]
    exact ih fun d hd => hsp d (List.mem_cons_of_mem c hd)

theorem tokensFrom_word {cur tok : List UInt8} (ht : ∀ c ∈ tok, c ≠ space) (r : List UInt8) :
    tokensFrom cur (tok ++ r) = tokensFrom (cur ++ tok) r := by
  induction tok generalizing cur with
  | nil => rw [List.nil_append, List.append_nil]
  | cons c tok ih =>
    rw [List.cons_append, tokensFrom, if_neg (ht c List.mem_cons_self),
      ih fun d hd => ht d (List.mem_cons_of_mem c hd), List.append_assoc, List.singleton_append]

theorem tokens_token {tok r : List UInt8} (ht : Token tok)
    (hr : r.head? = none ∨ r.head? = some space) : tokens (tok ++ r) = tok :: tokens r := by
  rw [tokens, tokensFrom_word ht.2, List.nil_append]
  rcases r with _ | ⟨y, r'⟩
  · simp [tokensFrom, ht.1]
  · have hy : y = space := by simpa using hr
    rw [hy, tokensFrom, if_pos rfl, if_neg ht.1, tokens_space]
    rfl

theorem line_cases (t : List UInt8) :
    (∀ c ∈ t, c = space) ∨ ∃ sp tok r, t = sp ++ tok ++ r ∧ (∀ c ∈ sp, c = space) ∧ Token tok ∧
      (r.head? = none ∨ r.head? = some space) := by
  induction t with
  | nil => exact .inl nofun
  | cons c t ih =>
    by_cases hc : c = space
    · rcases ih with h | ⟨sp, tok, r, rfl, hsp, htok, hr⟩
      · exact .inl (List.forall_mem_cons.mpr ⟨hc, h⟩)
      · exact .inr ⟨c :: sp, tok, r, rfl, List.forall_mem_cons.mpr ⟨hc, hsp⟩, htok, hr⟩
    · refine .inr ⟨[], c :: t.takeWhile (· != space), t.dropWhile (· != space), ?_, nofun,
        ⟨List.cons_ne_nil _ _, ?_⟩, ?_⟩
      · rw [List.nil_append, List.cons_append, List.takeWhile_append_dropWhile]
      · refine List.forall_mem_cons.mpr ⟨hc, fun d hd => ?_⟩
        have := List.mem_takeWhile_imp hd
        simpa using this
      · cases hdrop : t.dropWhile (· != space) with
        | nil => exact .inl rfl
        | cons d ds =>
          have := List.head_dropWhile_not (· != space) (l := t) (by rw [hdrop]; exact List.cons_ne_nil _ _)
          simp only [hdrop, List.head_cons] at this
          exact .inr (by simpa using this)

end BismarckPreloader.Cli
