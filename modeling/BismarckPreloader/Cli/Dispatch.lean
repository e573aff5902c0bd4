import BismarckPreloader.Cli.Parser
import Mathlib.Data.List.Forall2

/-!
# Command dispatch

`_cli_exec` as a loop over the tokens of a line. Matching, the terminators written behind the
first `maxArgv` tokens and the argument pointers are those of the source; the command is not
called but returned, with its count, the array of pointers, in which the null pointer is `none`,
and the buffer they point into. The array is not initialised: it starts with any contents.

`call` says which command a line stands for, in terms of its tokens. It is given the node
whose tails are looked up for the first token that is not a node. That is meant to be the last
node matched; `_cli_exec` passes the null pointer.
-/

namespace BismarckPreloader.Cli

def maxArgv : Nat := 12

/-- The contents of `argv[MAX_ARGV+1]` when `_cli_exec` is entered. -/
def Argv : Type := { argv : List (Option Nat) // argv.length = maxArgv + 1 }

def Argv.zero : Argv := ⟨List.replicate (maxArgv + 1) none, List.length_replicate⟩

/-- The variables of `_cli_exec`; `parent` is `none` for `DONT_MATCH_ANY_MORE`. -/
structure Exec (φ υ : Type) (n : Nat) where
  p : Nat
  buf : List UInt8
  parent : Option (Option (Fin n))
  func : Option φ
  user : Option υ
  argv : List (Option Nat)
  wc : Nat

/-- How `_cli_exec` ends, with the buffer it leaves behind. -/
inductive Result (φ υ : Type) where
  | noCmd (buf : List UInt8)
  | unknownCmd (buf : List UInt8)
  | call (func : φ) (user : Option υ) (argc : Nat) (argv : List (Option Nat)) (buf : List UInt8)

namespace Exec

variable {φ υ : Type} {n : Nat}

def push (s : Exec φ υ n) (tkn p : Nat) : Outcome (Exec φ υ n) (Result φ υ) Fault :=
  if s.wc < maxArgv then
    match s.buf[p]? with
    | none => .halt .outside
    | some c =>
      .attempt (store s.argv s.wc (some tkn)) fun argv =>
      if c ≠ 0 then
        .next { s with buf := s.buf.set p 0, p := p + 1, argv := argv, wc := s.wc + 1 }
      else
        .next { s with p := p, argv := argv, wc := s.wc + 1 }
  else .next { s with p := p }

variable {s : Exec φ υ n} {tkn p : Nat}

theorem push_end (hw : s.wc < maxArgv) (hs : s.argv.length = maxArgv + 1)
    (hget : s.buf[p]? = some 0) : s.push tkn p =
      .next { s with p := p, argv := s.argv.set s.wc (some tkn), wc := s.wc + 1 } := by
  rw [push, if_pos hw, hget, store_ok (by omega)]
  rfl

theorem push_space (hw : s.wc < maxArgv) (hs : s.argv.length = maxArgv + 1)
    (hget : s.buf[p]? = some space) : s.push tkn p =
      .next { s with
        buf := s.buf.set p 0, p := p + 1
        argv := s.argv.set s.wc (some tkn), wc := s.wc + 1 } := by
  rw [push, if_pos hw, hget, store_ok (by omega)]
  rfl

end Exec

namespace Tables

variable {φ υ : Type} (T : Tables φ υ)

def execStep (s : Exec φ υ T.size) : Outcome (Exec φ υ T.size) (Result φ υ) Fault :=
  .attempt (firstToken s.buf s.p) fun (tkn, p) =>
    match tkn with
    | none =>
      if s.wc = 0 then .ret (.noCmd s.buf)
      else match s.func with
        | none => .ret (.unknownCmd s.buf)
        | some f =>
          .attempt (store s.argv s.wc none) fun argv => .ret (.call f s.user s.wc argv s.buf)
    | some tkn =>
      match s.parent with
      | none => s.push tkn p
      | some parent =>
        .attempt (T.matchNodeName s.buf parent tkn) fun node =>
          match node with
          | none =>
            if s.wc = 0 then .ret (.unknownCmd s.buf)
            else
              .attempt (T.matchTailName s.buf none tkn) fun tail =>
                Exec.push
                  { s with user := if let some t := tail then t.user else s.user, parent := none }
                  tkn p
          | some b =>
            Exec.push { s with func := (T.node b).func.or s.func, parent := some (some b) } tkn p

/-- `_cli_exec` at its first pass. -/
def execStart (argv : Argv) (buf : List UInt8) : Exec φ υ T.size where
  p := 0
  buf := buf
  parent := some none
  func := none
  user := none
  argv := argv.1
  wc := 0

def chain (parent : Option (Fin T.size)) :
    List (List UInt8) → List (Fin T.size) × List (List UInt8)
  | [] => ([], [])
  | t :: ts =>
    match T.child parent t with
    | none => ([], t :: ts)
    | some b => (b :: (chain (some b) ts).1, (chain (some b) ts).2)

def tailUser (parent : Option (Fin T.size)) (tok : List UInt8) : Option υ :=
  (T.tail parent tok).bind Tail.user

def lastFunc (nodes : List (Fin T.size)) : Option φ :=
  (nodes.filterMap fun b => (T.node b).func).getLast?

end Tables

/-- A command with its arguments. -/
structure Call (φ υ : Type) where
  func : φ
  user : Option υ
  args : List (List UInt8)

namespace Tables

variable {φ υ : Type} (T : Tables φ υ)

def call (under : List (Fin T.size) → Option (Fin T.size)) (t : List UInt8) :
    Option (Call φ υ) :=
  let (nodes, rest) := T.chain none (tokens t)
  (T.lastFunc nodes).map fun f =>
    { func := f
      user := rest.head?.bind (T.tailUser (under nodes))
      args := (tokens t).take maxArgv }

end Tables

-- ---------------------------------------------------------------------------
-- Arguments
-- ---------------------------------------------------------------------------

theorem Holds.set {buf w : List UInt8} {a j : Nat} (h : Holds buf a w) (hj : a + w.length < j) :
    Holds (buf.set j 0) a w := by
  obtain ⟨hne, rest, hrest⟩ := h
  refine ⟨hne, rest.set (j - a - w.length - 1) 0, ?_⟩
  rw [List.drop_set, if_neg (by omega), hrest, List.set_append_right _ _ (by omega),
    show j - a - w.length = (j - a - w.length - 1) + 1 by omega, List.set_cons_succ]
  rfl

def Args (buf : List UInt8) (p : Nat) : List (Option Nat) → List (List UInt8) → Prop :=
  List.Forall₂ fun a w => ∃ q, a = some q ∧ Holds buf q w ∧ q + w.length ≤ p

theorem Args.mono {buf : List UInt8} {p q : Nat} {argv : List (Option Nat)}
    {args : List (List UInt8)} (h : Args buf p argv args) (hpq : p ≤ q) : Args buf q argv args :=
  h.imp fun _ _ ⟨q, hq, h1, h2⟩ => ⟨q, hq, h1, by omega⟩

theorem Args.set {buf : List UInt8} {p e : Nat} {argv : List (Option Nat)}
    {args : List (List UInt8)} (h : Args buf p argv args) (hpe : p ≤ e)
    (he : buf[e]? = some space) : Args (buf.set e 0) (e + 1) argv args := by
  refine h.imp fun a w ⟨q, hq, h1, h2⟩ => ⟨q, hq, h1.set ?_, by omega⟩
  rcases Nat.lt_or_eq_of_le (Nat.le_trans h2 hpe) with hlt | heq
  · exact hlt
  · -- the byte there is the end of an argument
    have := h1.getElem? (Nat.le_refl _)
    rw [heq, he] at this
    simp [space] at this

theorem Args.push {buf tok : List UInt8} {p q wc : Nat} {argv : List (Option Nat)}
    {args : List (List UInt8)} (h : Args buf p (argv.take wc) args) (hwc : wc < argv.length)
    (ht : Holds buf q tok) (hq : q + tok.length ≤ p) :
    Args buf p ((argv.set wc (some q)).take (wc + 1)) (args ++ [tok]) := by
  rw [List.take_add_one, List.take_set_of_le (Nat.le_refl _), List.getElem?_set_self hwc]
  exact List.rel_append h (.cons ⟨q, rfl, ht, hq⟩ .nil)

/-- What a command is given: the number of its arguments, a pointer to each, NUL-terminated, and
a null pointer behind them. -/
structure Passed (buf : List UInt8) (argc : Nat) (argv : List (Option Nat))
    (args : List (List UInt8)) : Prop where
  count : argc = args.length
  pointers : List.Forall₂ (fun a w => ∃ q, a = some q ∧ Holds buf q w) (argv.take argc) args
  ends : argv[argc]? = some none

theorem Holds.token {buf sp tok r : List UInt8} {p : Nat} (h : Holds buf p (sp ++ tok ++ r))
    (ht : Token tok) (hr : r.head? = none ∨ r.head? = some space) :
    TokenAt buf (p + sp.length) tok := by
  rw [List.append_assoc] at h
  obtain ⟨hne, rest, hrest⟩ := h.append
  refine ⟨fun c hc => ⟨hne c (List.mem_append_left r hc), ht.2 c hc⟩, ?_⟩
  rcases r with _ | ⟨y, r'⟩
  · exact ⟨0, rest, .inl rfl, by rw [hrest, List.append_nil]⟩
  · have hy : y = space := by simpa using hr
    exact ⟨y, r' ++ 0 :: rest, .inr hy, by rw [hrest, List.append_assoc, List.cons_append]⟩

theorem Holds.cut {buf tok r : List UInt8} {a : Nat} (h : Holds buf a (tok ++ space :: r)) :
    Holds (buf.set (a + tok.length) 0) a tok ∧
      Holds (buf.set (a + tok.length) 0) (a + tok.length + 1) r := by
  obtain ⟨hne, rest, hrest⟩ := h
  have hdrop : (buf.set (a + tok.length) 0).drop a = tok ++ 0 :: (r ++ 0 :: rest) := by
    rw [List.drop_set, if_neg (by omega), hrest, Nat.add_sub_cancel_left, List.append_assoc,
      List.set_append_right _ _ (Nat.le_refl _), Nat.sub_self]
    rfl
  refine ⟨⟨fun c hc => hne c (List.mem_append_left _ hc), _, hdrop⟩,
    fun c hc => hne c (by simp [hc]), rest, ?_⟩
  rw [Nat.add_assoc, ← List.drop_drop, hdrop, ← List.drop_drop, List.drop_left]
  rfl

-- ---------------------------------------------------------------------------
-- One pass
-- ---------------------------------------------------------------------------

section Passes

variable {φ υ : Type} {T : Tables φ υ} {s : Exec φ υ T.size} {sp tok r t : List UInt8}
  {args : List (List UInt8)}

/-- A state of the loop with the line `t` still to come and the arguments `args` taken. -/
structure At (s : Exec φ υ T.size) (t : List UInt8) (args : List (List UInt8)) : Prop where
  line : Holds s.buf s.p t
  size : s.argv.length = maxArgv + 1
  count : s.wc = args.length
  pointers : Args s.buf s.p (s.argv.take s.wc) args
  fits : args.length ≤ maxArgv

theorem At.room (h : At s t args) (hw : s.wc < maxArgv) : (args ++ [tok]).length ≤ maxArgv := by
  have hlen := h.count
  simp only [List.length_append, List.length_singleton]
  omega

theorem At.wc_ne_zero (h : At s t args) (ha : args ≠ []) : s.wc ≠ 0 := by
  rw [h.count]
  exact fun h0 => ha (List.length_eq_zero_iff.mp h0)

theorem At.push (h : At s (sp ++ tok ++ r) args) (hr : r.head? = none ∨ r.head? = some space) :
    ∃ p buf argv wc r', s.push (s.p + sp.length) (s.p + sp.length + tok.length) =
        .next { s with p := p, buf := buf, argv := argv, wc := wc } ∧
      tokens r' = tokens r ∧
      At { s with p := p, buf := buf, argv := argv, wc := wc } r'
        ((args ++ [tok]).take maxArgv) := by
  have hle : s.p ≤ s.p + sp.length + tok.length := by omega
  have hline : Holds s.buf (s.p + sp.length) (tok ++ r) := by
    have := h.line
    rw [List.append_assoc] at this
    exact this.append
  by_cases hw : s.wc < maxArgv
  · have hfits : (args ++ [tok]).length ≤ maxArgv := h.room hw
    have hsize : ∀ q, (s.argv.set s.wc (some q)).length = maxArgv + 1 := fun _ =>
      List.length_set.trans h.size
    have hroom : s.wc < s.argv.length := by
      rw [h.size]
      omega
    have hcount : s.wc + 1 = (args ++ [tok]).length := by
      rw [List.length_append, List.length_singleton, h.count]
    rw [List.take_of_length_le hfits]
    rcases r with _ | ⟨y, r'⟩
    · -- the token ends the line
      have hget : s.buf[s.p + sp.length + tok.length]? = some 0 := by
        have := hline.append.getElem? (i := 0) (Nat.le_refl _)
        simpa using this
      refine ⟨_, _, _, _, [], Exec.push_end hw h.size hget, rfl, hline.append, hsize _, hcount, ?_,
        hfits⟩
      rw [List.append_nil] at hline
      exact (h.pointers.mono hle).push hroom hline (Nat.le_refl _)
    · have hy : y = space := by simpa using hr
      subst hy
      obtain ⟨hcut, hrest⟩ := hline.cut
      have hget : s.buf[s.p + sp.length + tok.length]? = some space := by
        have := hline.getElem? (i := tok.length) (by simp)
        simpa using this
      refine ⟨_, _, _, _, r', Exec.push_space hw h.size hget, (tokens_space r').symm, hrest,
        hsize _, hcount, ?_, hfits⟩
      exact (h.pointers.set hle hget).push hroom hcut (Nat.le_succ _)
  · have hlen := h.count
    have hfit : (args ++ [tok]).take maxArgv = args := by
      rw [List.take_append_of_le_length (by omega), List.take_of_length_le h.fits]
    rw [hfit]
    refine ⟨_, _, _, _, r, ?_, rfl, hline.append, h.size, h.count, h.pointers.mono hle, h.fits⟩
    rw [Exec.push, if_neg hw]

theorem blank_of_tokens_nil (h : tokens t = []) : ∀ c ∈ t, c = space := by
  rcases line_cases t with hb | ⟨sp, tok, r, rfl, hsp, htok, hr⟩
  · exact hb
  · rw [List.append_assoc, tokens_spaces hsp, tokens_token htok hr] at h
    cases h

theorem exists_token {toks : List (List UInt8)} (h : tokens t = tok :: toks) :
    ∃ sp r, t = sp ++ tok ++ r ∧ (∀ c ∈ sp, c = space) ∧ Token tok ∧
      (r.head? = none ∨ r.head? = some space) ∧ tokens r = toks := by
  rcases line_cases t with hb | ⟨sp, tok', r, rfl, hsp, htok, hr⟩
  · have := tokens_spaces hb []
    rw [List.append_nil, h] at this
    cases this
  · rw [List.append_assoc, tokens_spaces hsp, tokens_token htok hr] at h
    cases h
    exact ⟨sp, r, rfl, hsp, htok, hr, rfl⟩

theorem take_take_append {α : Type} (l m : List α) (n : Nat) :
    (l.take n ++ m).take n = (l ++ m).take n := by
  rw [List.take_append, List.take_append, List.take_take, Nat.min_self, List.length_take]
  congr 2
  omega

def Result.of (func : Option φ) (user : Option υ) (argc : Nat) (argv : List (Option Nat))
    (buf : List UInt8) : Result φ υ :=
  match func with
  | none => .unknownCmd buf
  | some f => .call f user argc argv buf

/-- From `s` the loop ends after `k` passes, with this function and user and with these
arguments. -/
def EndsWith (s : Exec φ υ T.size) (k : Nat) (func : Option φ) (user : Option υ)
    (args : List (List UInt8)) : Prop :=
  ∃ argc argv buf, Loop.run T.execStep k s = .ret (.of func user argc argv buf) ∧
    Passed buf argc argv args

theorem EndsWith.head {s' : Exec φ υ T.size} {k : Nat} {func : Option φ} {user : Option υ}
    (hs : T.execStep s = .next s') (h : EndsWith s' k func user args) :
    EndsWith s (k + 1) func user args := by
  obtain ⟨argc, argv, buf, hl, ha⟩ := h
  exact ⟨argc, argv, buf, (Loop.run_succ_next hs).trans hl, ha⟩

theorem At.ends (h : At s t args) (ha : args ≠ []) (ht : tokens t = []) :
    EndsWith s 1 s.func s.user (args.take maxArgv) := by
  have hroom : s.wc < s.argv.length := by
    rw [h.size, h.count]
    exact Nat.lt_succ_of_le h.fits
  refine ⟨s.wc, s.argv.set s.wc none, s.buf, Loop.run_succ_exit ?_ rfl, ?_, ?_, ?_⟩
  · rw [Tables.execStep, firstToken_none h.line (blank_of_tokens_nil ht), Outcome.attempt_ok]
    dsimp only
    rw [if_neg (h.wc_ne_zero ha)]
    cases hf : s.func with
    | none => rfl
    | some f =>
      dsimp only
      rw [store_ok hroom, Outcome.attempt_ok]
      rfl
  · rw [List.take_of_length_le h.fits, h.count]
  · rw [List.take_of_length_le h.fits, List.take_set_of_le (Nat.le_refl _)]
    exact h.pointers.imp fun _ _ ⟨q, hq, hw, _⟩ => ⟨q, hq, hw⟩
  · rw [List.getElem?_set_self hroom]

theorem At.collect {toks : List (List UInt8)} (h : At s t args) (ha : args ≠ [])
    (hs : s.parent = none) (ht : tokens t = toks) :
    EndsWith s (toks.length + 1) s.func s.user ((args ++ toks).take maxArgv) := by
  induction toks generalizing s t args with
  | nil =>
    rw [List.append_nil]
    exact h.ends ha ht
  | cons tok toks ih =>
    obtain ⟨sp, r, rfl, hsp, htok, hr, rfl⟩ := exists_token ht
    obtain ⟨p, buf, argv, wc, r', hpush, htoks, hat⟩ := h.push hr
    have hstep : T.execStep s = s.push (s.p + sp.length) (s.p + sp.length + tok.length) := by
      rw [Tables.execStep, firstToken_some h.line hsp htok hr, Outcome.attempt_ok]
      dsimp only
      rw [hs]
    have hne : (args ++ [tok]).take maxArgv ≠ [] := by
      simp [maxArgv]
    have := ih hat hne hs htoks
    rw [take_take_append, List.append_assoc, List.singleton_append] at this
    exact .head (hstep.trans hpush) this

theorem lastFunc_cons (b : Fin T.size) (nodes : List (Fin T.size)) :
    T.lastFunc (b :: nodes) = (T.lastFunc nodes).or (T.node b).func := by
  rw [Tables.lastFunc, Tables.lastFunc, List.filterMap_cons]
  cases hf : (T.node b).func with
  | none => simp
  | some f =>
    dsimp only
    rw [List.getLast?_cons]
    cases (nodes.filterMap fun b => (T.node b).func).getLast? <;> rfl

theorem execStep_token {par : Option (Fin T.size)}
    (h : Holds s.buf s.p (sp ++ tok ++ r)) (hsp : ∀ c ∈ sp, c = space) (htok : Token tok)
    (hr : r.head? = none ∨ r.head? = some space) (hs : s.parent = some par) :
    T.execStep s = match T.child par tok with
      | some b =>
        Exec.push { s with func := (T.node b).func.or s.func, parent := some (some b) }
          (s.p + sp.length) (s.p + sp.length + tok.length)
      | none => if s.wc = 0 then .ret (.unknownCmd s.buf)
        else Exec.push
          { s with
            user := if let some t := T.tail none tok then t.user else s.user
            parent := none }
          (s.p + sp.length) (s.p + sp.length + tok.length) := by
  rw [Tables.execStep, firstToken_some h hsp htok hr, Outcome.attempt_ok]
  dsimp only
  rw [hs]
  dsimp only
  rw [Tables.matchNodeName_spec (h.token htok hr), Outcome.attempt_ok]
  cases T.child par tok with
  | some b => rfl
  | none =>
    dsimp only
    rw [Tables.matchTailName_spec (h.token htok hr), Outcome.attempt_ok]

theorem At.follow {toks : List (List UInt8)} {par : Option (Fin T.size)} (h : At s t args)
    (ha : args ≠ []) (hs : s.parent = some par) (hu : s.user = none) (ht : tokens t = toks) :
    EndsWith s (toks.length + 1) ((T.lastFunc (T.chain par toks).1).or s.func)
      ((T.chain par toks).2.head?.bind (T.tailUser none)) ((args ++ toks).take maxArgv) := by
  induction toks generalizing s t args par with
  | nil =>
    have := h.ends ha ht
    rw [hu] at this
    rw [List.append_nil]
    exact this
  | cons tok toks ih =>
    obtain ⟨sp, r, rfl, hsp, htok, hr, rfl⟩ := exists_token ht
    have hne : (args ++ [tok]).take maxArgv ≠ [] := by
      simp [maxArgv]
    have hargs : ((args ++ [tok]).take maxArgv ++ tokens r).take maxArgv =
        (args ++ tok :: tokens r).take maxArgv := by
      rw [take_take_append, List.append_assoc, List.singleton_append]
    rw [Tables.chain, ← hargs]
    cases hb : T.child par tok with
    | none =>
      have hstep := execStep_token h.line hsp htok hr hs
      rw [hb] at hstep
      rw [if_neg (h.wc_ne_zero ha)] at hstep
      obtain ⟨p, buf, argv, wc, r', hpush, htoks, hat⟩ :=
        At.push (s := { s with
          user := if let some t := T.tail none tok then t.user else s.user
          parent := none }) ⟨h.line, h.size, h.count, h.pointers, h.fits⟩ hr
      have := At.collect (T := T) hat hne rfl htoks
      refine .head (hstep.trans hpush) ?_
      have huser : (if let some t := T.tail none tok then t.user else s.user) =
          T.tailUser none tok := by
        rw [Tables.tailUser, hu]
        cases T.tail none tok <;> rfl
      dsimp only at this ⊢
      rw [huser] at this ⊢
      exact this
    | some b =>
      have hstep := execStep_token h.line hsp htok hr hs
      rw [hb] at hstep
      obtain ⟨p, buf, argv, wc, r', hpush, htoks, hat⟩ :=
        At.push (s := { s with func := (T.node b).func.or s.func, parent := some (some b) })
          ⟨h.line, h.size, h.count, h.pointers, h.fits⟩ hr
      have := ih hat hne rfl hu htoks
      refine .head (hstep.trans hpush) ?_
      dsimp only at this ⊢
      rw [lastFunc_cons, Option.or_assoc]
      exact this

end Passes

-- ---------------------------------------------------------------------------
-- Whole lines
-- ---------------------------------------------------------------------------

structure Line (φ υ : Type) where
  tables : Tables φ υ
  stack : Argv
  buf : List UInt8
  text : List UInt8
  holds : Holds buf 0 text

namespace Line

variable {φ υ : Type} (x : Line φ υ)

/-- `_cli_exec` calls what `c` says, or nothing. -/
def Runs : Option (Call φ υ) → Prop
  | none => ∃ r, Loop.Leads x.tables.execStep (x.tables.execStart x.stack x.buf) (.ret r) ∧
    ∀ f user argc argv buf, r ≠ .call f user argc argv buf
  | some c => ∃ argc argv buf, Loop.Leads x.tables.execStep (x.tables.execStart x.stack x.buf)
      (.ret (.call c.func c.user argc argv buf)) ∧ Passed buf argc argv c.args

def Dispatched : Prop := x.Runs (x.tables.call List.getLast? x.text)

def matched : List (Fin x.tables.size) × List (List UInt8) := x.tables.chain none (tokens x.text)

/-- The run lemma: after one pass per token and one more `_cli_exec` has ended, with tails
looked up below the null pointer. -/
theorem ends : ∃ r, Loop.run x.tables.execStep ((tokens x.text).length + 1)
      (x.tables.execStart x.stack x.buf) = .ret r ∧
    match x.tables.call (fun _ => none) x.text with
    | none => ∀ f user argc argv buf, r ≠ .call f user argc argv buf
    | some c => ∃ argc argv buf, r = .call c.func c.user argc argv buf ∧
      Passed buf argc argv c.args := by
  cases ht : tokens x.text with
  | nil =>
    have hstep : x.tables.execStep (x.tables.execStart x.stack x.buf) = .ret (.noCmd x.buf) := by
      rw [Tables.execStep]
      rw [show firstToken (x.tables.execStart x.stack x.buf).buf (x.tables.execStart x.stack x.buf).p = _ from
        firstToken_none x.holds (blank_of_tokens_nil ht), Outcome.attempt_ok]
      rfl
    rw [Tables.call, ht]
    exact ⟨_, Loop.run_succ_exit hstep rfl, nofun⟩
  | cons tok toks =>
    obtain ⟨sp, r, htext, hsp, htok, hr, htoks⟩ := exists_token ht
    have hline : Holds (x.tables.execStart x.stack x.buf).buf (x.tables.execStart x.stack x.buf).p
        (sp ++ tok ++ r) := htext ▸ x.holds
    rw [Tables.call, ht, Tables.chain]
    cases hb : x.tables.child none tok with
    | none =>
      have hstep := execStep_token hline hsp htok hr rfl
      rw [hb] at hstep
      exact ⟨_, Loop.run_succ_exit hstep rfl, nofun⟩
    | some b =>
      have hstep := execStep_token hline hsp htok hr rfl
      rw [hb] at hstep
      have hfirst : At { x.tables.execStart x.stack x.buf with
          func := (x.tables.node b).func.or none, parent := some (some b) } (sp ++ tok ++ r) [] :=
        ⟨hline, x.stack.2, rfl, .nil, Nat.zero_le _⟩
      obtain ⟨p, buf, argv, wc, r', hpush, htoks', hat⟩ := hfirst.push hr
      have hends := At.follow (T := x.tables) hat (by simp [maxArgv]) rfl rfl (htoks'.trans htoks)
      obtain ⟨argc', argv', buf', hl, ha⟩ := EndsWith.head (hstep.trans hpush) hends
      dsimp only at hl ha ⊢
      rw [Option.or_none, ← lastFunc_cons] at hl
      refine ⟨_, hl, ?_⟩
      cases hf : x.tables.lastFunc (b :: (x.tables.chain (some b) toks).1) with
      | none => exact nofun
      | some f =>
        refine ⟨argc', argv', buf', rfl, ?_⟩
        rwa [take_take_append, List.nil_append, List.singleton_append] at ha

theorem runs : x.Runs (x.tables.call (fun _ => none) x.text) := by
  obtain ⟨r, hr, hcall⟩ := x.ends
  cases hc : x.tables.call (fun _ => none) x.text with
  | none =>
    rw [hc] at hcall
    exact ⟨r, ⟨_, hr⟩, hcall⟩
  | some c =>
    rw [hc] at hcall
    obtain ⟨argc, argv, buf, rfl, ha⟩ := hcall
    exact ⟨argc, argv, buf, ⟨_, hr⟩, ha⟩

/-- Looking a tail up below the null pointer or below the last node gives the same user,
whenever it matters. -/
def TailsAgree : Prop :=
  ∀ f tok, x.tables.lastFunc x.matched.1 = some f → x.matched.2.head? = some tok →
    x.tables.tailUser none tok = x.tables.tailUser x.matched.1.getLast? tok

theorem call_eq (under : List (Fin x.tables.size) → Option (Fin x.tables.size)) :
    x.tables.call under x.text = (x.tables.lastFunc x.matched.1).map fun f =>
      { func := f
        user := x.matched.2.head?.bind (x.tables.tailUser (under x.matched.1))
        args := (tokens x.text).take maxArgv } := rfl

theorem tailsAgree_of_dispatched (h : x.Dispatched) : x.TailsAgree := by
  intro f tok hf htok
  have hruns := x.runs
  rw [Dispatched, call_eq, hf, htok] at h
  rw [call_eq, hf, htok] at hruns
  obtain ⟨argc, argv, buf, hl, -⟩ := h
  obtain ⟨argc', argv', buf', hl', -⟩ := hruns
  have hcall := hl.unique hl' rfl rfl
  simp only [Outcome.ret.injEq, Result.call.injEq] at hcall
  exact hcall.2.1.symm

theorem dispatched_of_tailsAgree (h : x.TailsAgree) : x.Dispatched := by
  have hruns := x.runs
  rw [Dispatched]
  rw [call_eq] at hruns ⊢
  cases hf : x.tables.lastFunc x.matched.1 with
  | none =>
    rw [hf] at hruns
    exact hruns
  | some f =>
    have huser : x.matched.2.head?.bind (x.tables.tailUser none) =
        x.matched.2.head?.bind (x.tables.tailUser x.matched.1.getLast?) := by
      cases htok : x.matched.2.head? with
      | none => rfl
      | some tok => exact h f tok hf htok
    rw [hf, Option.map_some, huser] at hruns
    exact hruns

/-- Lines are dispatched as they should be exactly if it does not matter below which node
tails are looked up. -/
theorem dispatched_iff : x.Dispatched ↔ x.TailsAgree :=
  ⟨x.tailsAgree_of_dispatched, x.dispatched_of_tailsAgree⟩

end Line

def oneLetter (c : UInt8) (h : c ≠ 0 ∧ c ≠ space) : Name :=
  ⟨[c], fun _ hd => List.mem_singleton.mp hd ▸ h⟩

def tailTables : Tables Unit Nat where
  size := 1
  node := fun _ => ⟨oneLetter 0x61 (by decide), none, some ()⟩
  mpNodes := []
  tails := [⟨oneLetter 0x62 (by decide), some 0, some 1⟩]

theorem tailLine_holds : Holds [0x61, 0x20, 0x62, 0] 0 [0x61, 0x20, 0x62] :=
  ⟨by decide +kernel, [], rfl⟩

def tailLine : Line Unit Nat where
  tables := tailTables
  stack := Argv.zero
  buf := [0x61, 0x20, 0x62, 0]
  text := [0x61, 0x20, 0x62]
  holds := tailLine_holds

theorem tailLine_not_dispatched : ¬ tailLine.Dispatched := by
  intro h
  have := tailLine.tailsAgree_of_dispatched h () [0x62] rfl rfl
  cases this

end BismarckPreloader.Cli
