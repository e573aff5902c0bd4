import BismarckPreloader.Cli.Dispatch

/-!
# The command line editor

`cli_main_loop` takes one key per step; `_cli_suggest_text` is what TAB does. The line buffer
`cmd_buf` has four bytes more than the backup of the last line. Its contents are arbitrary at
the start, as are those of the backup behind its first byte. A write or a scan outside the
line buffer is a fault.

`tabLine` says what TAB makes of a line: the tokens are followed down the tables, a line that
ends with them is closed by one blank, and a single name that fits what is left of the line
takes its place. `suggestText_spec` is that the code does this, exactly as long as the new line
fits into the buffer.
-/

namespace BismarckPreloader.Cli

def cmdInpBufSz : Nat := 128

/-- Size of `cmd_buf`. -/
def lineBufSz : Nat := cmdInpBufSz + 4

def charEsc : UInt8 := 27
def charTab : UInt8 := 9
def charBackspace : UInt8 := 8
def charDel : UInt8 := 0x7f
def charEnter : UInt8 := 0x0d

def printable (chr : UInt8) : Bool := 32 ≤ chr && chr ≤ 0x7a

-- ---------------------------------------------------------------------------
-- Suggestions
-- ---------------------------------------------------------------------------

def strcpy (buf : List UInt8) (dst : Nat) : List UInt8 → Except Fault (List UInt8)
  | [] => store buf dst 0
  | c :: s => do
    let buf ← store buf dst c
    strcpy buf (dst + 1) s

/-- `_cli_is_prefix` of the string at the head of `a` and a name. -/
def cliIsPrefix : List UInt8 → List UInt8 → Except Fault Bool
  | [], _ => .error .outside
  | x :: _, [] => if x = 0 then .ok true else .ok false
  | x :: a, y :: b =>
    if x = 0 then .ok true else if x ≠ y then .ok false else cliIsPrefix a b

def prefixed {α : Type} (a : List UInt8) (sel : α → Bool) (name : α → Name) :
    List α → Except Fault (List (List UInt8))
  | [] => .ok []
  | x :: xs =>
    if sel x then do
      let fits ← cliIsPrefix a (name x).1
      let rest ← prefixed a sel name xs
      pure (if fits then (name x).1 :: rest else rest)
    else prefixed a sel name xs

namespace Tables

variable {φ υ : Type} (T : Tables φ υ)

/-- `_cli_sort_suggest_text`: the names it counts, in the order it meets them. -/
def sortSuggestText (buf : List UInt8) (suggestParent : Option (Fin T.size)) (pre : Nat) :
    Except Fault (List (List UInt8)) := do
  let nodes ← prefixed (buf.drop pre) (fun b => suggestParent == (T.node b).parent)
    (fun b => (T.node b).name) (List.finRange T.size)
  let mpNodes ← prefixed (buf.drop pre) (fun b => suggestParent == b.oparent)
    (fun b => (T.node b.me).name) T.mpNodes
  let tails ← prefixed (buf.drop pre) (fun b => suggestParent == b.parent) Tail.name T.tails
  pure (nodes ++ mpNodes ++ tails)

/-- The loop over the tokens: the buffer, the start of what is to be completed and the node
below which to look. -/
def suggestLoop (buf : List UInt8) :
    Nat → Nat → Option (Fin T.size) → Except Fault (List UInt8 × Nat × Option (Fin T.size))
  | 0, _, _ => .error .outside
  | fuel + 1, p, parent => do
    let (tkn, e) ← firstToken buf p
    match tkn with
    | none =>
      let buf ← store buf p space
      let buf ← store buf (p + 1) 0
      pure (buf, p + 1, parent)
    | some tkn =>
      match ← T.matchNodeName buf parent tkn with
      | none => pure (buf, tkn, parent)
      | some b => suggestLoop buf fuel e (some b)

/-- `_cli_suggest_text` on the line at the start of the buffer. -/
def suggestText (buf : List UInt8) : Except Fault (List UInt8) := do
  let (buf, pre, parent) ← T.suggestLoop buf (buf.length + 1) 0 none
  let names ← T.sortSuggestText buf parent pre
  match names with
  | [name] => strcpy buf pre name
  | _ => pure buf

end Tables

/-- The variables of `cli_main_loop`; `p` is the index of the cursor in `cmd_buf`. -/
structure Editor where
  buf : List UInt8
  p : Nat
  backup : List UInt8

/-- What the commands called do: whether the line ends the loop. `stack` is what the array of
`_cli_exec` holds when it is entered. -/
structure Shell (φ υ : Type) extends Tables φ υ where
  exits : Result φ υ → Bool
  stack : Argv

namespace Result

variable {φ υ : Type}

def buf : Result φ υ → List UInt8
  | .noCmd buf => buf
  | .unknownCmd buf => buf
  | .call _ _ _ _ buf => buf

end Result

namespace Shell

variable {φ υ : Type} (S : Shell φ υ)

def execute (s : Editor) : Outcome Editor Unit Fault :=
  if s.buf[0]? = some 0x2e then .next { s with p := 0 }
  else
    match Loop.run S.execStep (s.buf.length + 1) (S.execStart S.stack s.buf) with
    | .ret r => if S.exits r then .ret () else .next { s with p := 0, buf := r.buf.set 0 0 }
    | .halt e => .halt e
    | .next _ => .halt .outside

def step (s : Editor) (chr : UInt8) : Outcome Editor Unit Fault :=
  if chr = 0 then .next s
  else if chr = charEsc then .next { s with p := 0 }
  else if chr = charBackspace then .next { s with p := s.p - 1 }
  else if chr = charTab then
    .attempt (store s.buf s.p 0) fun buf =>
    .attempt (S.suggestText buf) fun buf =>
    .attempt (scan (· != 0) (buf.drop s.p)) fun n =>
    .next { s with buf := buf, p := s.p + n }
  else if chr = charEnter then
    .attempt (store s.buf s.p 0) fun buf =>
    S.execute { s with buf := buf, backup := buf.take cmdInpBufSz }
  else if chr = charDel then
    S.execute { s with buf := s.backup ++ s.buf.drop cmdInpBufSz }
  else if ¬ printable chr then .next s
  else if s.p < cmdInpBufSz then
    .attempt (store s.buf s.p chr) fun buf => .next { s with buf := buf, p := s.p + 1 }
  else .next s

end Shell

-- ---------------------------------------------------------------------------
-- What TAB makes of a line
-- ---------------------------------------------------------------------------

def dropTokens : Nat → List UInt8 → List UInt8
  | 0, t => t
  | k + 1, t => dropTokens k ((t.dropWhile (· == space)).dropWhile (· != space))

namespace Tables

variable {φ υ : Type} (T : Tables φ υ)

def suggestions (parent : Option (Fin T.size)) (pre : List UInt8) : List (List UInt8) :=
  ((List.finRange T.size).filter fun b =>
      parent == (T.node b).parent && pre.isPrefixOf (T.node b).name.1).map
    (fun b => (T.node b).name.1) ++
  (T.mpNodes.filter fun b =>
      parent == b.oparent && pre.isPrefixOf (T.node b.me).name.1).map
    (fun b => (T.node b.me).name.1) ++
  (T.tails.filter fun b => parent == b.parent && pre.isPrefixOf b.name.1).map (fun b => b.name.1)

def tabBase (t : List UInt8) : List UInt8 :=
  let (nodes, rest) := T.chain none (tokens t)
  let u := dropTokens nodes.length t
  t.take (t.length - u.length) ++ if rest = [] then [space] else u.takeWhile (· == space)

def tabPrefix (t : List UInt8) : List UInt8 :=
  (dropTokens (T.chain none (tokens t)).1.length t).dropWhile (· == space)

def tabLine (t : List UInt8) : List UInt8 :=
  match T.suggestions (T.chain none (tokens t)).1.getLast? (T.tabPrefix t) with
  | [name] => T.tabBase t ++ name
  | _ => T.tabBase t ++ T.tabPrefix t

end Tables

section Words

variable {sp tok r : List UInt8}

theorem takeWhile_blank (hsp : ∀ c ∈ sp, c = space) (ht : Token tok) :
    (sp ++ tok ++ r).takeWhile (· == space) = sp := by
  obtain ⟨x, tok', rfl⟩ := List.exists_cons_of_ne_nil ht.1
  have hx : x ≠ space := ht.2 x List.mem_cons_self
  rw [List.append_assoc, List.takeWhile_append_of_pos (fun c hc => by simp [hsp c hc]),
    List.cons_append, List.takeWhile_cons_of_neg (by simp [hx]), List.append_nil]

theorem dropWhile_blank (hsp : ∀ c ∈ sp, c = space) (ht : Token tok) :
    (sp ++ tok ++ r).dropWhile (· == space) = tok ++ r := by
  obtain ⟨x, tok', rfl⟩ := List.exists_cons_of_ne_nil ht.1
  have hx : x ≠ space := ht.2 x List.mem_cons_self
  rw [List.append_assoc, List.dropWhile_append_of_pos (fun c hc => by simp [hsp c hc]),
    List.cons_append, List.dropWhile_cons_of_neg (by simp [hx])]

theorem dropWhile_word (ht : Token tok) (hr : r.head? = none ∨ r.head? = some space) :
    (tok ++ r).dropWhile (· != space) = r := by
  rw [List.dropWhile_append_of_pos (fun c hc => by simp [ht.2 c hc])]
  rcases r with _ | ⟨y, r'⟩
  · rfl
  · have hy : y = space := by simpa using hr
    rw [hy, List.dropWhile_cons_of_neg (by simp)]

theorem dropTokens_succ (k : Nat) (hsp : ∀ c ∈ sp, c = space) (ht : Token tok)
    (hr : r.head? = none ∨ r.head? = some space) :
    dropTokens (k + 1) (sp ++ tok ++ r) = dropTokens k r := by
  rw [dropTokens, dropWhile_blank hsp ht, dropWhile_word ht hr]

theorem dropTokens_suffix (k : Nat) (t : List UInt8) : dropTokens k t <:+ t := by
  induction k generalizing t with
  | zero => exact List.suffix_rfl
  | succ k ih =>
    exact (ih _).trans ((List.dropWhile_suffix _).trans (List.dropWhile_suffix _))

theorem take_dropTokens (k : Nat) (t : List UInt8) :
    t.take (t.length - (dropTokens k t).length) ++ dropTokens k t = t := by
  obtain ⟨front, hf⟩ := dropTokens_suffix k t
  generalize dropTokens k t = v at hf
  subst hf
  rw [List.length_append, Nat.add_sub_cancel, List.take_left]

end Words

-- ---------------------------------------------------------------------------
-- Writes
-- ---------------------------------------------------------------------------

def putStr (buf : List UInt8) (a : Nat) (s : List UInt8) : List UInt8 :=
  buf.take a ++ s ++ 0 :: buf.drop (a + s.length + 1)

section Writes

variable {buf s : List UInt8} {a : Nat}

theorem strcpy_ok (h : a + s.length < buf.length) : strcpy buf a s = .ok (putStr buf a s) := by
  induction s generalizing buf a with
  | nil =>
    rw [List.length_nil, Nat.add_zero] at h
    rw [strcpy, store, if_pos h, putStr, List.set_eq_take_append_cons_drop, if_pos h, List.append_nil]
    rfl
  | cons c s ih =>
    rw [List.length_cons] at h
    rw [strcpy, store, if_pos (by omega), ok_bind, ih (by rw [List.length_set]; omega)]
    refine congrArg Except.ok ?_
    rw [putStr, putStr, List.drop_set_of_lt (by omega),
      List.set_eq_take_append_cons_drop, if_pos (by omega),
      List.take_append, List.length_take, Nat.min_eq_left (by omega),
      List.take_of_length_le (by rw [List.length_take]; omega), Nat.add_sub_cancel_left,
      List.length_cons]
    simp only [List.take_succ_cons, List.take_zero, List.append_assoc, List.cons_append,
      List.nil_append]
    rw [show a + 1 + s.length + 1 = a + (s.length + 1) + 1 by omega]

theorem strcpy_error (h : buf.length ≤ a + s.length) : strcpy buf a s = .error .outside := by
  induction s generalizing buf a with
  | nil => rw [strcpy, store, if_neg (by simpa using h)]
  | cons c s ih =>
    rw [strcpy, store]
    rw [List.length_cons] at h
    by_cases ha : a < buf.length
    · rw [if_pos ha, ok_bind, ih (by rw [List.length_set]; omega)]
    · rw [if_neg ha, error_bind]

theorem length_putStr (h : a + s.length < buf.length) : (putStr buf a s).length = buf.length := by
  simp only [putStr, List.length_append, List.length_take, List.length_cons, List.length_drop]
  omega

theorem getElem?_putStr_of_lt {i : Nat} (h : a + s.length < buf.length) (hi : a + s.length < i) :
    (putStr buf a s)[i]? = buf[i]? := by
  have hlen : (buf.take a ++ s).length = a + s.length := by
    rw [List.length_append, List.length_take]
    omega
  rw [putStr, List.getElem?_append_right (by omega), hlen,
    show i - (a + s.length) = (i - (a + s.length) - 1) + 1 by omega, List.getElem?_cons_succ,
    List.getElem?_drop]
  congr 1
  omega

theorem putStr_holds {base : List UInt8} (hb : ∀ c ∈ base, c ≠ 0) (hs : ∀ c ∈ s, c ≠ 0)
    (ha : buf.take base.length = base) : Holds (putStr buf base.length s) 0 (base ++ s) := by
  refine ⟨fun c hc => (List.mem_append.mp hc).elim (hb c) (hs c),
    buf.drop (base.length + s.length + 1), ?_⟩
  rw [List.drop_zero, putStr, ha]

end Writes

theorem Holds.length_lt {buf t : List UInt8} (h : Holds buf 0 t) : t.length < buf.length := by
  obtain ⟨-, rest, hrest⟩ := h
  rw [List.drop_zero] at hrest
  rw [hrest, List.length_append, List.length_cons]
  omega

theorem Holds.take {buf t : List UInt8} (h : Holds buf 0 t) {n : Nat} (hn : n ≤ t.length) :
    buf.take n = t.take n := by
  obtain ⟨-, rest, hrest⟩ := h
  rw [List.drop_zero] at hrest
  rw [hrest, List.take_append_of_le_length hn]

-- ---------------------------------------------------------------------------
-- Suggestions
-- ---------------------------------------------------------------------------

theorem cliIsPrefix_spec {w rest name : List UInt8} (hw : ∀ c ∈ w, c ≠ 0) :
    cliIsPrefix (w ++ 0 :: rest) name = .ok (w.isPrefixOf name) := by
  induction w generalizing name with
  | nil => cases name <;> simp [cliIsPrefix]
  | cons x w ih =>
    have hx := hw x List.mem_cons_self
    cases name with
    | nil => rw [List.cons_append, cliIsPrefix, if_neg hx, List.isPrefixOf_cons_nil]
    | cons y b =>
      rw [List.cons_append, cliIsPrefix, if_neg hx,
        ih fun c hc => hw c (List.mem_cons_of_mem x hc), List.isPrefixOf_cons_cons]
      by_cases hxy : x = y
      · rw [if_neg (not_not.mpr hxy), beq_iff_eq.mpr hxy, Bool.true_and]
      · rw [if_pos hxy, beq_eq_false_iff_ne.mpr hxy, Bool.false_and]

theorem prefixed_spec {α : Type} {buf w : List UInt8} {p : Nat} (h : Holds buf p w)
    (sel : α → Bool) (name : α → Name) (xs : List α) :
    prefixed (buf.drop p) sel name xs =
      .ok ((xs.filter fun x => sel x && w.isPrefixOf (name x).1).map fun x => (name x).1) := by
  obtain ⟨hw, rest, hrest⟩ := h
  rw [hrest]
  induction xs with
  | nil => rfl
  | cons x xs ih =>
    rw [prefixed, ih, List.filter_cons]
    by_cases hsel : sel x = true
    · rw [if_pos hsel, cliIsPrefix_spec hw, ok_bind, ok_bind, hsel, Bool.true_and]
      cases w.isPrefixOf (name x).1 <;> rfl
    · rw [if_neg hsel, Bool.eq_false_iff.mpr hsel, Bool.false_and]
      rfl

namespace Tables

variable {φ υ : Type} {T : Tables φ υ} {buf u t : List UInt8} {p : Nat}

theorem sortSuggestText_spec {w : List UInt8} (h : Holds buf p w) (parent : Option (Fin T.size)) :
    T.sortSuggestText buf parent p = .ok (T.suggestions parent w) := by
  rw [sortSuggestText, prefixed_spec h, ok_bind, prefixed_spec h, ok_bind, prefixed_spec h, ok_bind]
  rfl

theorem separator_eq {α : Type} (k : List UInt8 → Except Fault α) :
    (do let buf ← store buf p space; let buf ← store buf (p + 1) 0; k buf) =
      strcpy buf p [space] >>= k := by
  rw [strcpy]
  cases store buf p space <;> rfl

theorem suggestLoop_spec {toks : List (List UInt8)} {par : Option (Fin T.size)} {fuel : Nat}
    (h : Holds buf p u) (ht : tokens u = toks) (hf : toks.length < fuel) :
    T.suggestLoop buf fuel p par =
      if (T.chain par toks).2 = [] then
        strcpy buf (p + (u.length - (dropTokens (T.chain par toks).1.length u).length)) [space] >>=
          fun buf => .ok (buf,
            p + (u.length - (dropTokens (T.chain par toks).1.length u).length) + 1,
            (T.chain par toks).1.getLast?.or par)
      else .ok (buf,
        p + (u.length - (dropTokens (T.chain par toks).1.length u).length) +
          ((dropTokens (T.chain par toks).1.length u).takeWhile (· == space)).length,
        (T.chain par toks).1.getLast?.or par) := by
  induction toks generalizing p u par fuel with
  | nil =>
    obtain ⟨fuel, rfl⟩ := Nat.exists_eq_succ_of_ne_zero (Nat.ne_of_gt hf)
    rw [suggestLoop, firstToken_none h (blank_of_tokens_nil ht), ok_bind,
      if_pos (show (T.chain par []).2 = [] from rfl)]
    simp only [chain, List.length_nil, dropTokens, Nat.sub_self, Nat.add_zero]
    exact separator_eq _
  | cons tok toks ih =>
    obtain ⟨fuel, rfl⟩ := Nat.exists_eq_succ_of_ne_zero (by omega : fuel ≠ 0)
    obtain ⟨sp, r, rfl, hsp, htok, hr, rfl⟩ := exists_token ht
    rw [suggestLoop, firstToken_some h hsp htok hr, ok_bind]
    dsimp only
    rw [matchNodeName_spec (h.token htok hr), ok_bind]
    cases hb : T.child par tok with
    | none =>
      have hc : T.chain par (tok :: tokens r) = ([], tok :: tokens r) := by rw [chain, hb]
      dsimp only
      rw [if_neg (by rw [hc]; exact List.cons_ne_nil _ _), hc]
      simp only [List.length_nil, dropTokens, Nat.sub_self, Nat.add_zero, takeWhile_blank hsp htok]
      rfl
    | some b =>
      have hc : T.chain par (tok :: tokens r) =
          (b :: (T.chain (some b) (tokens r)).1, (T.chain (some b) (tokens r)).2) := by
        rw [chain, hb]
      have hrest : Holds buf (p + sp.length + tok.length) r := by
        have := h.append
        rwa [List.length_append, ← Nat.add_assoc] at this
      have hle := (dropTokens_suffix (T.chain (some b) (tokens r)).1.length r).length_le
      dsimp only
      simp only [hc]
      rw [ih hrest rfl (by simpa using hf), List.length_cons, dropTokens_succ _ hsp htok hr,
        List.getLast?_cons]
      have hq : p + ((sp ++ tok ++ r).length -
          (dropTokens (T.chain (some b) (tokens r)).1.length r).length) =
          p + sp.length + tok.length +
            (r.length - (dropTokens (T.chain (some b) (tokens r)).1.length r).length) := by
        simp only [List.length_append]
        omega
      have hpar : (T.chain (some b) (tokens r)).1.getLast?.or (some b) =
          (some ((T.chain (some b) (tokens r)).1.getLast?.getD b)).or par := by
        cases (T.chain (some b) (tokens r)).1.getLast? <;> rfl
      rw [hq, hpar]

theorem suggestions_plain {parent : Option (Fin T.size)} {w name : List UInt8}
    (h : name ∈ T.suggestions parent w) : ∀ c ∈ name, c ≠ 0 := by
  simp only [suggestions, List.mem_append, List.mem_map] at h
  obtain (⟨b, -, rfl⟩ | ⟨b, -, rfl⟩) | ⟨b, -, rfl⟩ := h
  · exact fun c hc => ((T.node b).name.2 c hc).1
  · exact fun c hc => ((T.node b.me).name.2 c hc).1
  · exact fun c hc => (b.name.2 c hc).1

def completed (T : Tables φ υ) (parent : Option (Fin T.size)) (base w : List UInt8) : List UInt8 :=
  match T.suggestions parent w with
  | [name] => base ++ name
  | _ => base ++ w

/-- The rest of `_cli_suggest_text`. -/
def complete (T : Tables φ υ) (buf : List UInt8) (parent : Option (Fin T.size)) (pre : Nat) :
    Except Fault (List UInt8) := do
  let names ← T.sortSuggestText buf parent pre
  match names with
  | [name] => strcpy buf pre name
  | _ => pure buf

theorem complete_eq {base w : List UInt8} (h : Holds buf 0 (base ++ w))
    (parent : Option (Fin T.size)) :
    T.complete buf parent base.length = match T.suggestions parent w with
      | [name] => strcpy buf base.length name
      | _ => .ok buf := by
  have hpre := h.append
  rw [Nat.zero_add] at hpre
  rw [complete, sortSuggestText_spec hpre, ok_bind]
  rfl

theorem complete_ok {base w : List UInt8} {parent : Option (Fin T.size)}
    (h : Holds buf 0 (base ++ w)) (hl : (T.completed parent base w).length < buf.length) :
    ∃ buf', T.complete buf parent base.length = .ok buf' ∧
      Holds buf' 0 (T.completed parent base w) ∧ buf'.length = buf.length ∧
      ∀ i, (T.completed parent base w).length < i → buf'[i]? = buf[i]? := by
  rw [complete_eq h]
  unfold completed at hl ⊢
  split at hl
  next name hs =>
    rw [List.length_append] at hl
    refine ⟨_, strcpy_ok hl, putStr_holds ?_ ?_ ?_, length_putStr hl, fun i hi => ?_⟩
    · exact fun c hc => h.1 c (List.mem_append_left w hc)
    · exact suggestions_plain (by rw [hs]; exact List.mem_singleton_self name)
    · rw [h.take (by simp), List.take_left]
    · rw [List.length_append] at hi
      exact getElem?_putStr_of_lt hl hi
  next hs => exact ⟨buf, rfl, h, rfl, fun _ _ => rfl⟩

theorem complete_error {base w : List UInt8} {parent : Option (Fin T.size)}
    (h : Holds buf 0 (base ++ w)) (hl : buf.length ≤ (T.completed parent base w).length) :
    T.complete buf parent base.length = .error .outside := by
  rw [complete_eq h]
  unfold completed at hl
  split at hl
  next name hs =>
    rw [List.length_append] at hl
    exact strcpy_error hl
  next hs =>
    have := h.length_lt
    omega

theorem chain_rest (par : Option (Fin T.size)) (toks : List (List UInt8)) :
    (T.chain par toks).2 = toks.drop (T.chain par toks).1.length := by
  induction toks generalizing par with
  | nil => rfl
  | cons tok toks ih =>
    rw [chain]
    cases T.child par tok with
    | none => rfl
    | some b => exact ih (some b)

end Tables

theorem tokens_dropTokens (k : Nat) (t : List UInt8) :
    tokens (dropTokens k t) = (tokens t).drop k := by
  induction k generalizing t with
  | zero => rfl
  | succ k ih =>
    cases ht : tokens t with
    | nil =>
      have hd : t.dropWhile (· == space) = [] := by
        rw [List.dropWhile_eq_nil_iff]
        intro c hc
        simp [blank_of_tokens_nil ht c hc]
      rw [dropTokens, hd, ih, List.dropWhile_nil, tokens_nil, List.drop_nil, List.drop_nil]
    | cons tok toks =>
      obtain ⟨sp, r, rfl, hsp, htok, hr, rfl⟩ := exists_token ht
      rw [dropTokens_succ _ hsp htok hr, ih, List.drop_succ_cons]

namespace Tables

variable {φ υ : Type} {T : Tables φ υ} {buf t : List UInt8}

theorem tabLine_eq (t : List UInt8) : T.tabLine t =
    T.completed (T.chain none (tokens t)).1.getLast? (T.tabBase t) (T.tabPrefix t) := rfl

theorem tabBase_le (t : List UInt8) : (T.tabBase t).length ≤ (T.tabLine t).length := by
  rw [tabLine_eq, completed]
  split <;> rw [List.length_append] <;> omega

theorem suggestText_eq (buf : List UInt8) : T.suggestText buf =
    T.suggestLoop buf (buf.length + 1) 0 none >>= fun r => T.complete r.1 r.2.2 r.2.1 := rfl

theorem length_tokensFrom_le (cur t : List UInt8) :
    (tokensFrom cur t).length ≤ t.length + if cur = [] then 0 else 1 := by
  induction t generalizing cur with
  | nil =>
    rw [tokensFrom]
    split <;> simp
  | cons c t ih =>
    have h0 := ih []
    have h1 := ih (cur ++ [c])
    rw [if_pos rfl] at h0
    rw [if_neg (by simp)] at h1
    rw [tokensFrom, List.length_cons]
    split
    · split
      · omega
      · rw [List.length_cons]
        omega
    · split <;> omega

theorem length_tokens_le (t : List UInt8) : (tokens t).length ≤ t.length := by
  have := length_tokensFrom_le [] t
  rwa [if_pos rfl] at this

def nodesEnd (T : Tables φ υ) (t : List UInt8) : Nat :=
  t.length - (dropTokens (T.chain none (tokens t)).1.length t).length

theorem length_take_nodesEnd (t : List UInt8) :
    (t.take (T.nodesEnd t)).length = T.nodesEnd t :=
  List.length_take_of_le (Nat.sub_le _ _)

theorem tabBase_of_nodes (hr : (T.chain none (tokens t)).2 = []) :
    T.tabBase t = t.take (T.nodesEnd t) ++ [space] := by
  simp only [tabBase, hr, if_true]
  rfl

theorem tabPrefix_of_nodes (hr : (T.chain none (tokens t)).2 = []) : T.tabPrefix t = [] := by
  have htoks := tokens_dropTokens (T.chain none (tokens t)).1.length t
  rw [← chain_rest, hr] at htoks
  rw [tabPrefix, List.dropWhile_eq_nil_iff]
  intro c hc
  exact beq_iff_eq.mpr (blank_of_tokens_nil htoks c hc)

theorem tabBase_of_word (hr : (T.chain none (tokens t)).2 ≠ []) :
    T.tabBase t = t.take (T.nodesEnd t) ++
      (dropTokens (T.chain none (tokens t)).1.length t).takeWhile (· == space) := by
  simp only [tabBase, if_neg hr]
  rfl

theorem tabBase_append_tabPrefix (hr : (T.chain none (tokens t)).2 ≠ []) :
    T.tabBase t ++ T.tabPrefix t = t := by
  rw [tabBase_of_word hr, tabPrefix, List.append_assoc, List.takeWhile_append_dropWhile]
  exact take_dropTokens _ t

theorem length_tokens_lt (h : Holds buf 0 t) : (tokens t).length < buf.length + 1 :=
  Nat.lt_succ_of_le (Nat.le_trans (length_tokens_le t) (Nat.le_of_lt h.length_lt))

theorem suggestLoop_nodes (h : Holds buf 0 t) (hr : (T.chain none (tokens t)).2 = []) :
    T.suggestLoop buf (buf.length + 1) 0 none = strcpy buf (T.nodesEnd t) [space] >>=
      fun buf => .ok (buf, (T.tabBase t).length, (T.chain none (tokens t)).1.getLast?) := by
  have hloop : T.suggestLoop buf (buf.length + 1) 0 none = _ :=
    suggestLoop_spec h rfl (length_tokens_lt h)
  rw [if_pos hr, Option.or_none, Nat.zero_add] at hloop
  rw [tabBase_of_nodes hr, List.length_append, length_take_nodesEnd, List.length_singleton]
  exact hloop

theorem suggestLoop_word (h : Holds buf 0 t) (hr : (T.chain none (tokens t)).2 ≠ []) :
    T.suggestLoop buf (buf.length + 1) 0 none =
      .ok (buf, (T.tabBase t).length, (T.chain none (tokens t)).1.getLast?) := by
  have hloop : T.suggestLoop buf (buf.length + 1) 0 none = _ :=
    suggestLoop_spec h rfl (length_tokens_lt h)
  rw [if_neg hr, Option.or_none, Nat.zero_add] at hloop
  rw [tabBase_of_word hr, List.length_append, length_take_nodesEnd]
  exact hloop

/-- What the loop of `_cli_suggest_text` leaves: the part that stays, and behind it the part
to be completed, as long as a blank that is added fits. -/
theorem suggestLoop_line (h : Holds buf 0 t) :
    (∃ buf', T.suggestLoop buf (buf.length + 1) 0 none =
        .ok (buf', (T.tabBase t).length, (T.chain none (tokens t)).1.getLast?) ∧
      Holds buf' 0 (T.tabBase t ++ T.tabPrefix t) ∧ buf'.length = buf.length ∧
      ∀ i, (T.tabBase t).length < i → buf'[i]? = buf[i]?) ∨
    T.suggestLoop buf (buf.length + 1) 0 none = .error .outside ∧
      buf.length ≤ (T.tabBase t).length := by
  by_cases hr : (T.chain none (tokens t)).2 = []
  · rw [suggestLoop_nodes h hr, tabPrefix_of_nodes hr, List.append_nil]
    have hbl : (T.tabBase t).length = T.nodesEnd t + [space].length := by
      rw [tabBase_of_nodes hr, List.length_append, length_take_nodesEnd]
    by_cases hfit : T.nodesEnd t + [space].length < buf.length
    · rw [strcpy_ok hfit, ok_bind]
      refine .inl ⟨putStr buf (T.nodesEnd t) [space], rfl, ?_, length_putStr hfit, ?_⟩
      · have hkept : buf.take (t.take (T.nodesEnd t)).length = t.take (T.nodesEnd t) := by
          rw [length_take_nodesEnd]
          exact h.take (Nat.sub_le _ _)
        have hput := putStr_holds (s := [space])
          (fun c hc => h.1 c (List.mem_of_mem_take hc)) (by decide +kernel) hkept
        rwa [length_take_nodesEnd, ← tabBase_of_nodes hr] at hput
      · intro i hi
        rw [hbl] at hi
        exact getElem?_putStr_of_lt hfit hi
    · rw [strcpy_error (by omega), error_bind, hbl]
      exact .inr ⟨rfl, by omega⟩
  · refine .inl ⟨buf, suggestLoop_word h hr, ?_, rfl, fun _ _ => rfl⟩
    rwa [tabBase_append_tabPrefix hr]

/-- TAB does what `tabLine` says, if the new line fits into the buffer, and leaves all behind
the new line as it is. -/
theorem suggestText_ok (h : Holds buf 0 t) (hl : (T.tabLine t).length < buf.length) :
    ∃ buf', T.suggestText buf = .ok buf' ∧ Holds buf' 0 (T.tabLine t) ∧
      buf'.length = buf.length ∧ ∀ i, (T.tabLine t).length < i → buf'[i]? = buf[i]? := by
  have hge := tabBase_le (T := T) t
  rw [suggestText_eq]
  rcases suggestLoop_line (T := T) h with ⟨buf₁, hloop, hh, hlen, hsame⟩ | ⟨-, hle⟩
  · rw [hloop, ok_bind]
    rw [tabLine_eq] at hl hge ⊢
    obtain ⟨buf₂, hc, hh', hlen', hsame'⟩ := complete_ok hh (hlen ▸ hl)
    refine ⟨buf₂, hc, hh', hlen'.trans hlen, fun i hi => ?_⟩
    rw [hsame' i hi, hsame i (by omega)]
  · omega

theorem suggestText_error (h : Holds buf 0 t) (hl : buf.length ≤ (T.tabLine t).length) :
    T.suggestText buf = .error .outside := by
  rw [suggestText_eq]
  rcases suggestLoop_line (T := T) h with ⟨buf₁, hloop, hh, hlen, -⟩ | ⟨hloop, -⟩
  · rw [hloop, ok_bind]
    exact complete_error hh (by rw [hlen]; exact hl)
  · rw [hloop, error_bind]

end Tables

end BismarckPreloader.Cli
