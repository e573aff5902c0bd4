import BismarckPreloader.Fdt.Walk

/-!
# The walk over well-formed tokens

A struct block is a list of tokens, each laid out in words. This module says what
the two loops of the walk do in front of each kind of token, and from that what
they do on a whole list of tokens.

Two things stand out. In front of a node's start token at a depth other than 0
`fdt_find_node` goes round without moving until the depth wraps to 0, and then
compares the name after all (`node_start_leads`); so it finds the first node of that
name that starts later, wherever it is. And a name whose length is a positive
multiple of 4 ends in a zero word, which reads as the head of a token: either loop
stops there (`Aligned`).
-/

namespace BismarckPreloader.Fdt

-- ---------------------------------------------------------------------------
-- Layout
-- ---------------------------------------------------------------------------

def nameWords (name : List UInt8) : List UInt32 := packWords (name ++ [0])

inductive Tok where
  | nop
  | prop (off : UInt32) (value : List UInt8)
  | start (name : List UInt8)
  | stop
  deriving DecidableEq, Repr

def Tok.words : Tok → List UInt32
  | .nop => [fdtNop]
  | .prop off value => fdtProp :: UInt32.ofNat value.length :: off :: packWords value
  | .start name => fdtNodeStart :: nameWords name
  | .stop => [fdtNodeEnd]

def Tok.size (t : Tok) : Nat := t.words.length

def layout (ts : List Tok) : List UInt32 := ts.flatMap Tok.words ++ [fdtEnd]

def Plain (name : List UInt8) : Prop := ∀ c ∈ name, c ≠ 0 ∧ c ≠ slash

instance (name : List UInt8) : Decidable (Plain name) :=
  inferInstanceAs (Decidable (∀ c ∈ name, _))

def Aligned (name : List UInt8) : Prop := name ≠ [] ∧ 4 ∣ name.length

instance (name : List UInt8) : Decidable (Aligned name) :=
  inferInstanceAs (Decidable (_ ∧ _))

theorem fdtIsTokenHead_iff (w : UInt32) : fdtIsTokenHead w = true ↔ w.toNat < 16 := by
  have h : (w >>> 4).toNat = w.toNat / 16 := by
    rw [UInt32.toNat_shiftRight]
    simp [Nat.shiftRight_eq_div_pow]
  simp only [fdtIsTokenHead, decide_eq_true_eq, ← UInt32.toNat_inj, h, UInt32.toNat_zero]
  omega

theorem packWord_not_head (ha : a ≠ 0) (b c d : UInt8) :
    fdtIsTokenHead (packWord a b c d) = false := by
  have hpos : a.toNat ≠ 0 := fun h => ha (UInt8.toNat_inj.mp h)
  rw [Bool.eq_false_iff, ne_eq, fdtIsTokenHead_iff, packWord_toNat]
  omega

theorem nameWords_cons4 (a b c d : UInt8) (name : List UInt8) :
    nameWords (a :: b :: c :: d :: name) = packWord a b c d :: nameWords name := rfl

theorem length_nameWords (name : List UInt8) : (nameWords name).length = name.length / 4 + 1 := by
  induction name using packWords.induct with
  | case1 => rfl
  | case2 a => simp [nameWords, packWords]
  | case3 a b => simp [nameWords, packWords]
  | case4 a b c => simp [nameWords, packWords]
  | case5 a b c d name ih =>
    rw [nameWords_cons4, List.length_cons, ih]
    simp only [List.length_cons]
    omega

/-- Of the words of a name, only the zero word behind a length that is a multiple
of 4 reads as the head of a token. -/
theorem nameWords_heads (hn : ∀ c ∈ name, c ≠ (0 : UInt8)) :
    (¬ 4 ∣ name.length ∧ ∀ w ∈ nameWords name, fdtIsTokenHead w = false) ∨
      (4 ∣ name.length ∧ ∃ ws, nameWords name = ws ++ [0] ∧
        ∀ w ∈ ws, fdtIsTokenHead w = false) := by
  induction name using packWords.induct with
  | case1 => exact .inr ⟨by decide, [], rfl, by simp⟩
  | case2 a =>
    have ha := packWord_not_head (hn a (by simp)) 0 0 0
    exact .inl ⟨by simp, by simpa [nameWords, packWords] using ha⟩
  | case3 a b =>
    have ha := packWord_not_head (hn a (by simp)) b 0 0
    exact .inl ⟨by simp, by simpa [nameWords, packWords] using ha⟩
  | case4 a b c =>
    have ha := packWord_not_head (hn a (by simp)) b c 0
    exact .inl ⟨by simp, by simpa [nameWords, packWords] using ha⟩
  | case5 a b c d name ih =>
    have ha := packWord_not_head (hn a (by simp)) b c d
    have hlen : 4 ∣ (a :: b :: c :: d :: name).length ↔ 4 ∣ name.length := by
      simp only [List.length_cons]
      omega
    rw [hlen, nameWords_cons4]
    rcases ih fun x hx => hn x (by simp [hx]) with ⟨hd, hw⟩ | ⟨hd, ws, he, hw⟩
    · refine .inl ⟨hd, ?_⟩
      rintro w (_ | ⟨_, h⟩)
      · exact ha
      · exact hw w h
    · refine .inr ⟨hd, packWord a b c d :: ws, by rw [he]; rfl, ?_⟩
      rintro w (_ | ⟨_, h⟩)
      · exact ha
      · exact hw w h

theorem nextTokenHead_append (hws : ∀ x ∈ ws, fdtIsTokenHead x = false)
    (hw : fdtIsTokenHead w = true) (rest : List UInt32) (i : Nat) :
    nextTokenHead (ws ++ w :: rest) i = .ok (i + ws.length) := by
  induction ws generalizing i with
  | nil => simp [nextTokenHead, hw]
  | cons x ws ih =>
    have hx := hws x (by simp)
    rw [List.cons_append, nextTokenHead, hx, if_neg (by decide), ih fun y hy => hws y (by simp [hy]),
      List.length_cons]
    congr 1
    omega

-- ---------------------------------------------------------------------------
-- Reading what is left of the struct block
-- ---------------------------------------------------------------------------

def Blocks.At (m : Blocks) (i : Nat) (ws : List UInt32) : Prop := m.struct.drop i = ws

namespace Blocks.At

variable {m : Blocks}

theorem word (h : m.At i (w :: ws)) : m.word i = .ok w := by
  have : m.struct[i]? = some w := by
    rw [← List.head?_drop, h, List.head?_cons]
  simp [Blocks.word, this]

theorem append (h : m.At i (ws ++ vs)) : m.At (i + ws.length) vs := by
  unfold Blocks.At at *
  rw [← List.drop_drop, h, List.drop_left]

theorem tail (h : m.At i (w :: ws)) : m.At (i + 1) ws := by
  have h : m.At i ([w] ++ ws) := h
  exact h.append

theorem length_le (h : m.At i (w :: ws)) : i + ws.length + 1 ≤ m.struct.length := by
  have := congrArg List.length h
  rw [List.length_drop, List.length_cons] at this
  omega

end Blocks.At

def Presents (s1 : Nat → Except FdtFault UInt8) : Nat → List UInt8 → Prop
  | _, [] => True
  | i, c :: cs => s1 i = .ok c ∧ Presents s1 (i + 1) cs

theorem structByte_at {m : Blocks} (h : m.At q (w :: ws)) (hk : k < 4) :
    m.structByte (4 * q + k) = .ok (wordByte w k) := by
  have : m.struct[q]? = some w := by
    rw [← List.head?_drop, h, List.head?_cons]
  have hdiv : (4 * q + k) / 4 = q := by omega
  have hmod : (4 * q + k) % 4 = k := by omega
  simp [Blocks.structByte, hdiv, hmod, this]

theorem structByte_packWord {m : Blocks} (h : m.At q (packWord a b c d :: ws)) :
    m.structByte (4 * q) = .ok a ∧ m.structByte (4 * q + 1) = .ok b ∧
      m.structByte (4 * q + 2) = .ok c ∧ m.structByte (4 * q + 3) = .ok d := by
  obtain ⟨ha, hb, hc, hd⟩ := wordByte_packWord a b c d
  have h0 := structByte_at h (k := 0) (by decide)
  refine ⟨by rw [← ha]; exact h0, ?_, ?_, ?_⟩
  · rw [structByte_at h (by decide), hb]
  · rw [structByte_at h (by decide), hc]
  · rw [structByte_at h (by decide), hd]

theorem presents_packWords {m : Blocks} (h : m.At q (packWords bs ++ ws)) :
    Presents m.structByte (4 * q) bs := by
  induction bs using packWords.induct generalizing q with
  | case1 => trivial
  | case2 a =>
    obtain ⟨ha, -⟩ := structByte_packWord h
    exact ⟨ha, trivial⟩
  | case3 a b =>
    obtain ⟨ha, hb, -⟩ := structByte_packWord h
    exact ⟨ha, hb, trivial⟩
  | case4 a b c =>
    obtain ⟨ha, hb, hc, -⟩ := structByte_packWord h
    exact ⟨ha, hb, hc, trivial⟩
  | case5 a b c d bs ih =>
    obtain ⟨ha, hb, hc, hd⟩ := structByte_packWord h
    exact ⟨ha, hb, hc, hd, ih h.tail⟩

/-- `fdt_strcmp` of a string in memory with a component of a path, up to the end of
the path or the mark `ext`. -/
theorem fdtStrcmp_presents (hn : ∀ c ∈ name, c ≠ (0 : UInt8) ∧ c ≠ ext)
    (hc : ∀ c ∈ comp, c ≠ (0 : UInt8) ∧ c ≠ ext) (ht : tail = [] ∨ ∃ s, tail = ext :: s)
    (hp : Presents s1 i (name ++ [0])) :
    fdtStrcmp s1 i (comp ++ tail) ext = .ok (decide (name ≠ comp)) := by
  induction comp generalizing i name with
  | nil =>
    cases name with
    | nil =>
      have h0 : s1 i = .ok 0 := hp.1
      rcases ht with rfl | ⟨s, rfl⟩
      · simp [fdtStrcmp_nil h0, fdtIsEos]
      · simp [fdtStrcmp_cons h0, fdtIsEos]
    | cons a name =>
      obtain ⟨ha0, hae⟩ := hn a (by simp)
      have h0 : s1 i = .ok a := hp.1
      rcases ht with rfl | ⟨s, rfl⟩
      · simp [fdtStrcmp_nil h0, fdtIsEos, ha0, hae]
      · simp [fdtStrcmp_cons h0, fdtIsEos, ha0, hae]
  | cons c comp ih =>
    obtain ⟨hc0, hce⟩ := hc c (by simp)
    rw [List.cons_append]
    cases name with
    | nil =>
      have h0 : s1 i = .ok 0 := hp.1
      simp [fdtStrcmp_cons h0, fdtIsEos, hc0, hce]
    | cons a name =>
      have h0 : s1 i = .ok a := hp.1
      rw [fdtStrcmp_cons h0]
      by_cases hac : a = c
      · subst hac
        rw [if_pos ⟨hc0, hc0, rfl⟩,
          ih (fun x hx => hn x (by simp [hx])) (fun x hx => hc x (by simp [hx])) hp.2]
        simp
      · simp [fdtIsEos, hac, hc0, hce]

-- ---------------------------------------------------------------------------
-- One pass in front of a token
-- ---------------------------------------------------------------------------

theorem layout_cons (t : Tok) (ts : List Tok) : layout (t :: ts) = t.words ++ layout ts := by
  simp [layout]

theorem layout_head (ts : List Tok) :
    ∃ w ws, layout ts = w :: ws ∧ fdtIsTokenHead w = true := by
  cases ts with
  | nil => exact ⟨fdtEnd, [], rfl, by decide⟩
  | cons t ts =>
    rw [layout_cons]
    cases t with
    | nop => exact ⟨_, _, rfl, by decide⟩
    | prop off value => exact ⟨_, _, rfl, by decide⟩
    | start name => exact ⟨_, _, rfl, by decide⟩
    | stop => exact ⟨_, _, rfl, by decide⟩

variable {m : Blocks}

theorem Blocks.At.next (h : m.At i (layout (t :: ts))) : m.At (i + t.size) (layout ts) := by
  rw [layout_cons] at h
  exact h.append

theorem skipName_of_not_aligned (h : m.At i (layout (.start name :: ts)))
    (hn : ∀ c ∈ name, c ≠ (0 : UInt8)) (ha : ¬ Aligned name) :
    m.skipName i = .ok (i + (Tok.start name).size) := by
  obtain ⟨w, ws, hl, hw⟩ := layout_head ts
  have hat : m.At (i + 1) (nameWords name ++ layout ts) := by
    rw [layout_cons] at h
    exact h.tail
  rw [Blocks.skipName]
  have hsize : (Tok.start name).size = (nameWords name).length + 1 := rfl
  rcases nameWords_heads hn with ⟨-, hheads⟩ | ⟨hd, ws', he, -⟩
  · cases hv : nameWords name with
    | nil => simpa [hv] using length_nameWords name
    | cons v vs =>
      rw [hv, hl] at hat
      have hdrop : m.struct.drop (i + 2) = vs ++ w :: ws := hat.tail
      rw [hdrop, nextTokenHead_append (fun x hx => hheads x (by simp [hv, hx])) hw, hsize, hv,
        List.length_cons]
      congr 1
      omega
  · have hnil : name = [] := by
      by_contra hne
      exact ha ⟨hne, hd⟩
    subst hnil
    have hdrop : m.struct.drop (i + 2) = w :: ws := by
      rw [hl] at hat
      exact hat.tail
    simp [hdrop, nextTokenHead, hw, hsize, nameWords, packWords]

theorem skipName_of_aligned (h : m.At i (layout (.start name :: ts)))
    (hn : ∀ c ∈ name, c ≠ (0 : UInt8)) (ha : Aligned name) :
    ∃ j, m.skipName i = .ok j ∧ m.word j = .ok 0 := by
  have hat : m.At (i + 1) (nameWords name ++ layout ts) := by
    rw [layout_cons] at h
    exact h.tail
  rcases nameWords_heads hn with ⟨hd, -⟩ | ⟨-, ws, he, hheads⟩
  · exact absurd ha.2 hd
  · cases ws with
    | nil =>
      have hlen := length_nameWords name
      rw [he, List.nil_append, List.length_singleton] at hlen
      have hpos := List.length_pos_iff.mpr ha.1
      obtain ⟨k, hk⟩ := ha.2
      omega
    | cons v vs =>
      rw [he, List.append_assoc, List.cons_append] at hat
      have hrest : m.At (i + 2) (vs ++ 0 :: layout ts) := hat.tail
      have hheads' : ∀ x ∈ vs, fdtIsTokenHead x = false := fun x hx => hheads x (by simp [hx])
      refine ⟨i + 2 + vs.length, ?_, hrest.append.word⟩
      rw [Blocks.skipName, hrest, nextTokenHead_append hheads' (by decide)]

theorem propEnd_eq (h : m.At i (layout (.prop off value :: ts))) :
    m.word (i + 1) = .ok (UInt32.ofNat value.length) ∧
      propEnd i (UInt32.ofNat value.length) = i + (Tok.prop off value).size := by
  rw [layout_cons] at h
  have h : m.At i (fdtProp :: UInt32.ofNat value.length :: off :: (packWords value ++ layout ts)) := h
  have hlen := h.length_le
  have hsized := m.sized
  have hsize : (Tok.prop off value).size = (value.length + 3) / 4 + 3 := by
    simp [Tok.size, Tok.words, length_packWords]
  refine ⟨h.tail.word, ?_⟩
  simp only [List.length_append, List.length_cons, length_packWords] at hlen
  have hn : ((UInt32.ofNat value.length + 3) / 4).toNat = (value.length + 3) / 4 := by
    rw [UInt32.toNat_div, UInt32.toNat_add, UInt32.toNat_ofNat']
    have h3 : (3 : UInt32).toNat = 3 := rfl
    have h4 : (4 : UInt32).toNat = 4 := rfl
    rw [h3, h4, Nat.mod_eq_of_lt (by omega : value.length < 2 ^ 32), Nat.mod_eq_of_lt (by omega)]
  rw [propEnd, hn, hsize, Nat.mod_eq_of_lt (by omega)]
  omega

/-- A token of a well-formed tree: plain names, and property names that end inside
the strings block. -/
def Tok.Fine (m : Blocks) : Tok → Prop
  | .start name => Plain name
  | .prop off _ => 0 ∈ m.strings.drop off.toNat
  | _ => True

theorem getPropPass_next (h : Frame.pass m ⟨call, c⟩ = .next c') :
    getPropPass m ⟨call, c⟩ = .next ⟨call, c'⟩ := by
  simp [getPropPass, h]

theorem getPropPass_ret (h : Frame.pass m ⟨call, c⟩ = .ret r) :
    getPropPass m ⟨call, c⟩ = call.resume r := by
  simp [getPropPass, h]

theorem getPropPass_zero (h : m.word c.token = .ok 0) :
    getPropPass m ⟨call, c⟩ = .halt (.unknownToken c.token) := by
  have hw : ¬ IsToken 0 := by
    unfold IsToken
    decide
  unfold getPropPass Frame.pass
  cases call with
  | root path => simp [findNodePass_unknown h hw]
  | node name next => simp [findNodePass_unknown h hw]
  | prop name => simp [findPropPass_unknown h hw]

/-- In front of a start token `fdt_find_node` gets to depth 0, whatever the depth:
at another one it goes round until the counter wraps. -/
theorem node_start_leads (hcall : ∀ c, Frame.pass m ⟨call, c⟩ = findNodePass m ptr c)
    (h : m.At i (layout (.start name :: ts))) (d : UInt32) :
    Loop.Leads (getPropPass m) ⟨call, i, d⟩ (.next ⟨call, i, 0⟩) := by
  rw [layout_cons] at h
  have hw : m.word i = .ok fdtNodeStart := Blocks.At.word h
  have hlt := d.toNat_lt
  -- induction on the number of rounds until the counter wraps
  obtain ⟨n, hn⟩ : ∃ n, d.toNat + n = 2 ^ 32 := ⟨2 ^ 32 - d.toNat, by omega⟩
  induction n generalizing d with
  | zero => omega
  | succ n ih =>
    by_cases hd : d = 0
    · subst hd
      exact .refl _
    have hstep : getPropPass m ⟨call, i, d⟩ = .next ⟨call, i, d + 1⟩ := by
      apply getPropPass_next
      rw [hcall, findNodePass_nodeStart hw, if_neg hd]
    refine .head hstep ?_
    have hnat : (d + 1).toNat = (d.toNat + 1) % 2 ^ 32 := UInt32.toNat_add d 1
    by_cases hwrap : d.toNat + 1 = 2 ^ 32
    · have hzero : d + 1 = 0 := by
        apply UInt32.toNat_inj.mp
        rw [hnat, hwrap]
        rfl
      rw [hzero]
      exact .refl _
    · rw [Nat.mod_eq_of_lt (by omega)] at hnat
      exact ih (d + 1) (by omega) (by omega)

-- ---------------------------------------------------------------------------
-- Looking for a node
-- ---------------------------------------------------------------------------

/-- The first node of that name that starts among the tokens `ts`, which begin at
word `i`: what follows its start token, and where. -/
def seekNode (name : List UInt8) : List Tok → Nat → Option (List Tok × Nat)
  | [], _ => none
  | .start n :: ts, i =>
    if n = name then some (ts, i + (Tok.start n).size)
    else seekNode name ts (i + (Tok.start n).size)
  | t :: ts, i => seekNode name ts (i + t.size)

def seekNodeNames (name : List UInt8) : List Tok → List (List UInt8)
  | [] => []
  | .start n :: ts => if n = name then [n] else n :: seekNodeNames name ts
  | _ :: ts => seekNodeNames name ts

theorem seekNode_pass (ht : ∀ n, t ≠ .start n) (name : List UInt8) (ts : List Tok) (i : Nat) :
    seekNode name (t :: ts) i = seekNode name ts (i + t.size) ∧
      seekNodeNames name (t :: ts) = seekNodeNames name ts := by
  cases t with
  | start n => exact absurd rfl (ht n)
  | nop => exact ⟨rfl, rfl⟩
  | prop off value => exact ⟨rfl, rfl⟩
  | stop => exact ⟨rfl, rfl⟩

theorem seekNode_at (hat : m.At i (layout ts)) (h : seekNode name ts i = some (ts', j)) :
    m.At j (layout ts') ∧ ∀ t ∈ ts', t ∈ ts := by
  induction ts generalizing i with
  | nil => cases h
  | cons t ts ih =>
    have hrest : seekNode name ts (i + t.size) = some (ts', j) →
        m.At j (layout ts') ∧ ∀ x ∈ ts', x ∈ t :: ts := fun hs =>
      ⟨(ih hat.next hs).1, fun x hx => List.mem_cons_of_mem _ ((ih hat.next hs).2 x hx)⟩
    cases t with
    | start n =>
      rw [seekNode] at h
      split at h
      · cases h
        exact ⟨hat.next, fun x hx => List.mem_cons_of_mem _ hx⟩
      · exact hrest h
    | nop => exact hrest h
    | prop off value => exact hrest h
    | stop => exact hrest h

/-- From the frame `f` a search that passes nodes of these names gets to `o`, unless one
of the names is aligned: it then stops for good behind it. -/
def Passes (m : Blocks) (f : Frame) (names : List (List UInt8)) (o : FrameOutcome) : Prop :=
  ((∀ n ∈ names, ¬ Aligned n) ∧ Loop.Leads (getPropPass m) f o) ∨
    ((∃ n ∈ names, Aligned n) ∧ ∃ j, Loop.Leads (getPropPass m) f (.halt (.unknownToken j)))

namespace Passes

theorem of_leads (h : Loop.Leads (getPropPass m) f o) : Passes m f [] o := .inl ⟨by simp, h⟩

theorem stuck (hn : n ∈ names) (ha : Aligned n)
    (h : Loop.Leads (getPropPass m) f (.halt (.unknownToken j))) : Passes m f names o :=
  .inr ⟨⟨n, hn, ha⟩, j, h⟩

theorem append (h : Passes m f names (.next f')) (h' : Passes m f' names' o) :
    Passes m f (names ++ names') o := by
  rcases h with ⟨hal, hl⟩ | ⟨⟨n, hn, ha⟩, j, hl⟩
  · rcases h' with ⟨hal', hl'⟩ | ⟨⟨n, hn, ha⟩, j, hl'⟩
    · exact .inl ⟨fun n hn => (List.mem_append.mp hn).elim (hal n) (hal' n), hl.trans hl'⟩
    · exact stuck (List.mem_append_right _ hn) ha (hl.trans hl')
  · exact stuck (List.mem_append_left _ hn) ha hl

theorem head (hl : Loop.Leads (getPropPass m) f (.next f')) (h : Passes m f' names o) :
    Passes m f names o :=
  (of_leads hl).append h

theorem cons (hn : ¬ Aligned n) (hl : Loop.Leads (getPropPass m) f (.next f'))
    (h : Passes m f' names o) : Passes m f (n :: names) o :=
  append (.inl ⟨by simpa using hn, hl⟩ : Passes m f [n] _) h

end Passes

section Node

variable {call : Call} {comp tail : List UInt8}
  (hcall : ∀ c, Frame.pass m ⟨call, c⟩ = findNodePass m (comp ++ tail) c)
  (hcomp : Plain comp) (htail : tail = [] ∨ ∃ s, tail = slash :: s)

include hcall in
theorem node_pass_leads (h : m.At i (layout (t :: ts))) (ht : ∀ n, t ≠ .start n) (d : UInt32) :
    ∃ d', Loop.Leads (getPropPass m) ⟨call, i, d⟩ (.next ⟨call, i + t.size, d'⟩) := by
  have hat := h
  rw [layout_cons] at h
  cases t with
  | start n => exact absurd rfl (ht n)
  | nop =>
    refine ⟨d, .one (getPropPass_next ?_)⟩
    rw [hcall, findNodePass_nop (Blocks.At.word h)]
    rfl
  | stop =>
    refine ⟨d - 1, .one (getPropPass_next ?_)⟩
    rw [hcall, findNodePass_nodeEnd (Blocks.At.word h)]
    rfl
  | prop off value =>
    obtain ⟨hlen, hend⟩ := propEnd_eq hat
    refine ⟨d, .one (getPropPass_next ?_)⟩
    rw [hcall, findNodePass_prop (Blocks.At.word h)]
    simp [hlen, hend]

include hcall hcomp htail in
theorem node_name_leads (h : m.At i (layout (.start n :: ts))) (hn : Plain n)
    (hskip : m.skipName i = .ok j) (d : UInt32) :
    Loop.Leads (getPropPass m) ⟨call, i, d⟩
      (if n = comp then call.resume (some j) else .next ⟨call, j, 1⟩) := by
  have hw : m.word i = .ok fdtNodeStart := by
    rw [layout_cons] at h
    exact Blocks.At.word h
  have hname : m.At (i + 1) (nameWords n ++ layout ts) := by
    rw [layout_cons] at h
    exact h.tail
  have hcmp := fdtStrcmp_presents hn hcomp htail (presents_packWords hname)
  refine (node_start_leads hcall h d).trans ?_
  have hpass : findNodePass m (comp ++ tail) ⟨i, 0⟩ = _ := findNodePass_nodeStart hw
  rw [if_pos rfl, hcmp, hskip] at hpass
  by_cases hnc : n = comp
  · rw [if_pos hnc]
    apply Loop.Leads.one
    apply getPropPass_ret
    rw [hcall, hpass]
    simp [hnc]
  · rw [if_neg hnc]
    apply Loop.Leads.one
    apply getPropPass_next
    rw [hcall, hpass]
    simp [hnc]

include hcall hcomp htail in
theorem node_leads (hat : m.At i (layout ts)) (hts : ∀ t ∈ ts, t.Fine m)
    (hgo : ∀ j, ∃ call', call.resume (some j) = .next ⟨call', j, 0⟩) (d : UInt32) :
    Passes m ⟨call, i, d⟩ (seekNodeNames comp ts)
      (call.resume ((seekNode comp ts i).map Prod.snd)) := by
  induction ts generalizing i d with
  | nil =>
    refine .of_leads (.one (getPropPass_ret ?_))
    rw [hcall, findNodePass_end (Blocks.At.word hat)]
    rfl
  | cons t ts ih =>
    have hts' : ∀ x ∈ ts, x.Fine m := fun x hx => hts x (by simp [hx])
    by_cases ht : ∀ n, t ≠ .start n
    · obtain ⟨d', hl⟩ := node_pass_leads hcall hat ht d
      obtain ⟨hseek, hnames⟩ := seekNode_pass ht comp ts i
      rw [hseek, hnames]
      exact .head hl (ih hat.next hts' d')
    · push Not at ht
      obtain ⟨n, rfl⟩ := ht
      have hn : Plain n := hts (.start n) (by simp)
      by_cases hna : Aligned n
      · -- the walk is left in front of the zero word, in this call or in the next
        obtain ⟨j, hskip, hzero⟩ := skipName_of_aligned hat (fun c hc => (hn c hc).1) hna
        have hl := node_name_leads hcall hcomp htail hat hn hskip d
        obtain ⟨call', hcall'⟩ := hgo j
        rw [hcall'] at hl
        refine .stuck (by rw [seekNodeNames]; split <;> simp) hna (j := j) ?_
        split at hl
        · exact hl.trans (.one (getPropPass_zero hzero))
        · exact hl.trans (.one (getPropPass_zero hzero))
      · have hskip := skipName_of_not_aligned hat (fun c hc => (hn c hc).1) hna
        have hl := node_name_leads hcall hcomp htail hat hn hskip d
        rw [seekNode, seekNodeNames]
        by_cases hnc : n = comp
        · rw [if_pos hnc] at hl
          rw [if_pos hnc, if_pos hnc]
          exact .inl ⟨by simpa using hna, hl⟩
        · rw [if_neg hnc] at hl
          rw [if_neg hnc, if_neg hnc]
          exact .cons hna hl (ih hat.next hts' 1)

end Node

-- ---------------------------------------------------------------------------
-- Looking for a property
-- ---------------------------------------------------------------------------

def cstring (strings : List UInt8) (off : Nat) : List UInt8 :=
  (strings.drop off).takeWhile (· ≠ 0)

theorem takeWhile_split {l : List UInt8} (h : 0 ∈ l) :
    (∃ rest, l = l.takeWhile (· ≠ 0) ++ 0 :: rest) ∧ ∀ c ∈ l.takeWhile (· ≠ 0), c ≠ 0 := by
  induction l with
  | nil => cases h
  | cons c l ih =>
    by_cases hc : c = 0
    · subst hc
      exact ⟨⟨l, by simp⟩, by simp⟩
    · obtain ⟨⟨rest, hrest⟩, hne⟩ := ih (by simpa [Ne.symm hc] using h)
      have htake : (c :: l).takeWhile (· ≠ 0) = c :: l.takeWhile (· ≠ 0) := by simp [hc]
      rw [htake]
      refine ⟨⟨rest, by rw [List.cons_append, ← hrest]⟩, ?_⟩
      rintro x (_ | ⟨_, hx⟩)
      · exact hc
      · exact hne x hx

theorem presents_strings (h : m.strings.drop off = bs ++ rest) : Presents m.stringByte off bs := by
  induction bs generalizing off with
  | nil => trivial
  | cons c bs ih =>
    have hc : m.strings[off]? = some c := by
      rw [← List.head?_drop, h]
      rfl
    refine ⟨by simp [Blocks.stringByte, hc], ih ?_⟩
    rw [← List.drop_drop, h]
    rfl

theorem presents_cstring (h : 0 ∈ m.strings.drop off) :
    Presents m.stringByte off (cstring m.strings off ++ [0]) := by
  obtain ⟨⟨rest, hrest⟩, -⟩ := takeWhile_split h
  apply presents_strings
  rw [cstring, List.append_assoc]
  exact hrest

/-- The property of that name at the level where the tokens begin, from `depth`
levels below: where its value is. -/
def seekProp (strings name : List UInt8) : Nat → List Tok → Nat → Option Nat
  | _, [], _ => none
  | depth, .nop :: ts, i => seekProp strings name depth ts (i + 1)
  | depth, .prop off value :: ts, i =>
    if depth = 0 ∧ cstring strings off.toNat = name then some (i + 3)
    else seekProp strings name depth ts (i + (Tok.prop off value).size)
  | depth, .start n :: ts, i => seekProp strings name (depth + 1) ts (i + (Tok.start n).size)
  | 0, .stop :: _, _ => none
  | depth + 1, .stop :: ts, i => seekProp strings name depth ts (i + 1)

def seekPropNames (strings name : List UInt8) : Nat → List Tok → List (List UInt8)
  | _, [] => []
  | depth, .nop :: ts => seekPropNames strings name depth ts
  | depth, .prop off _ :: ts =>
    if depth = 0 ∧ cstring strings off.toNat = name then []
    else seekPropNames strings name depth ts
  | depth, .start n :: ts => n :: seekPropNames strings name (depth + 1) ts
  | 0, .stop :: _ => []
  | depth + 1, .stop :: ts => seekPropNames strings name depth ts

theorem ofNat_depth_ne_zero (h : depth + 1 < 2 ^ 32) : UInt32.ofNat (depth + 1) ≠ 0 := by
  intro he
  have := congrArg UInt32.toNat he
  rw [UInt32.toNat_ofNat', Nat.mod_eq_of_lt h] at this
  simp at this

theorem fdtStrcmp_cstring (hoff : 0 ∈ m.strings.drop off) (hname : ∀ c ∈ name, c ≠ (0 : UInt8)) :
    fdtStrcmp m.stringByte off name 0 = .ok (decide (cstring m.strings off ≠ name)) := by
  have hne := (takeWhile_split hoff).2
  have hcmp := fdtStrcmp_presents (fun c hc => ⟨hne c hc, hne c hc⟩)
    (fun c hc => ⟨hname c hc, hname c hc⟩) (.inl rfl) (presents_cstring hoff)
  rwa [List.append_nil] at hcmp

theorem findPropPass_token (h : m.At i (layout (.prop off value :: ts)))
    (hoff : 0 ∈ m.strings.drop off.toNat) (hname : ∀ c ∈ name, c ≠ (0 : UInt8))
    (depth : Nat) (hd : depth < 2 ^ 32) :
    findPropPass m name ⟨i, UInt32.ofNat depth⟩ =
      if depth = 0 ∧ cstring m.strings off.toNat = name then .ret (some (i + 3))
      else .next ⟨i + (Tok.prop off value).size, UInt32.ofNat depth⟩ := by
  obtain ⟨hlen, hend⟩ := propEnd_eq h
  rw [layout_cons] at h
  have hw2 : m.word (i + 2) = .ok off := h.tail.tail.word
  have hcmp := fdtStrcmp_cstring hoff hname
  rw [findPropPass_prop (Blocks.At.word h)]
  cases depth with
  | zero =>
    by_cases hn : cstring m.strings off.toNat = name
    · simp [hw2, hcmp, hn]
    · simp [hw2, hcmp, hn, hlen, hend]
  | succ depth =>
    rw [if_neg (ofNat_depth_ne_zero hd)]
    simp [hlen, hend]

theorem ofNat_succ_depth (depth : Nat) : UInt32.ofNat depth + 1 = UInt32.ofNat (depth + 1) := by
  rw [UInt32.ofNat_add]
  rfl

theorem ofNat_pred_depth (depth : Nat) : UInt32.ofNat (depth + 1) - 1 = UInt32.ofNat depth := by
  rw [UInt32.ofNat_add]
  exact UInt32.add_sub_cancel _ _

theorem prop_leads (hname : ∀ c ∈ name, c ≠ (0 : UInt8)) (hat : m.At i (layout ts))
    (hts : ∀ t ∈ ts, t.Fine m) (depth : Nat) (hd : depth + (layout ts).length < 2 ^ 32) :
    Passes m ⟨.prop name, i, UInt32.ofNat depth⟩ (seekPropNames m.strings name depth ts)
      (.ret (seekProp m.strings name depth ts i)) := by
  induction ts generalizing i depth with
  | nil => exact .of_leads (.one (getPropPass_ret (findPropPass_end (Blocks.At.word hat))))
  | cons t ts ih =>
    have hts' : ∀ x ∈ ts, x.Fine m := fun x hx => hts x (by simp [hx])
    have hat' := hat
    rw [layout_cons] at hat'
    rw [layout_cons, List.length_append] at hd
    cases t with
    | nop =>
      have hpass : Frame.pass m ⟨.prop name, i, UInt32.ofNat depth⟩ = _ :=
        findPropPass_nop (Blocks.At.word hat')
      exact .head (.one (getPropPass_next hpass)) (ih hat.next hts' depth (by omega))
    | prop off value =>
      have hoff : 0 ∈ m.strings.drop off.toNat := hts (.prop off value) (by simp)
      have hpass : Frame.pass m ⟨.prop name, i, UInt32.ofNat depth⟩ = _ :=
        findPropPass_token hat hoff hname depth (by omega)
      rw [seekProp, seekPropNames]
      split at hpass
      next hm =>
        rw [if_pos hm, if_pos hm]
        exact .of_leads (.one (getPropPass_ret hpass))
      next hm =>
        rw [if_neg hm, if_neg hm]
        exact .head (.one (getPropPass_next hpass)) (ih hat.next hts' depth (by omega))
    | start n =>
      have hn : Plain n := hts (.start n) (by simp)
      have hpass : Frame.pass m ⟨.prop name, i, UInt32.ofNat depth⟩ = _ :=
        findPropPass_nodeStart (Blocks.At.word hat')
      dsimp only at hpass
      rw [ofNat_succ_depth] at hpass
      rw [seekPropNames, seekProp]
      by_cases hna : Aligned n
      · obtain ⟨j, hskip, hzero⟩ := skipName_of_aligned hat (fun c hc => (hn c hc).1) hna
        rw [hskip] at hpass
        exact .stuck (by simp) hna (.head (getPropPass_next hpass) (.one (getPropPass_zero hzero)))
      · rw [skipName_of_not_aligned hat (fun c hc => (hn c hc).1) hna] at hpass
        have hlen : 0 < (Tok.start n).words.length := by simp [Tok.words]
        exact .cons hna (.one (getPropPass_next hpass)) (ih hat.next hts' (depth + 1) (by omega))
    | stop =>
      have hpass : Frame.pass m ⟨.prop name, i, UInt32.ofNat depth⟩ = _ :=
        findPropPass_nodeEnd (Blocks.At.word hat')
      cases depth with
      | zero => exact .of_leads (.one (getPropPass_ret hpass))
      | succ depth =>
        rw [if_pos (ofNat_depth_ne_zero (by omega))] at hpass
        dsimp only at hpass
        rw [ofNat_pred_depth] at hpass
        exact .head (.one (getPropPass_next hpass)) (ih hat.next hts' depth (by omega))

end BismarckPreloader.Fdt
