import BismarckPreloader.Fdt.Tokens

/-!
# Device trees and the path lookup

`Body` is the contents of a node in document order: no-ops, properties and child
nodes. `Tree` is a well-formed tree with its strings, `Tree.blocks` its flattened
form, and `Tree.lookup` what a path means: child by child from the root, and then
the property.

`Tree.forward` is what `fdt_get_prop` finds instead (`getProp_leads`): each component
is looked for among all nodes that start later in the document, not only among the
children of the node reached so far. `lookupCorrect_iff` puts the two side by side.
-/

namespace BismarckPreloader.Fdt

inductive Body where
  | done
  | nop (rest : Body)
  | prop (off : UInt32) (value : List UInt8) (rest : Body)
  | node (name : List UInt8) (body rest : Body)

namespace Body

def toks : Body → List Tok
  | .done => []
  | .nop rest => .nop :: rest.toks
  | .prop off value rest => .prop off value :: rest.toks
  | .node name body rest => .start name :: (body.toks ++ .stop :: rest.toks)

def size : Body → Nat
  | .done => 0
  | .nop rest => 1 + rest.size
  | .prop off value rest => (Tok.prop off value).size + rest.size
  | .node name body rest => (Tok.start name).size + body.size + 1 + rest.size

def children : Body → List (List UInt8)
  | .done => []
  | .nop rest => rest.children
  | .prop _ _ rest => rest.children
  | .node name _ rest => name :: rest.children

/-- Plain names, siblings with different ones, and property names that end inside
the strings block. -/
def WellFormed (strings : List UInt8) : Body → Prop
  | .done => True
  | .nop rest => rest.WellFormed strings
  | .prop off _ rest => 0 ∈ strings.drop off.toNat ∧ rest.WellFormed strings
  | .node name body rest =>
    Plain name ∧ name ∉ rest.children ∧ body.WellFormed strings ∧ rest.WellFormed strings

instance decWellFormed (strings : List UInt8) : (b : Body) → Decidable (b.WellFormed strings)
  | .done => inferInstanceAs (Decidable True)
  | .nop rest => decWellFormed strings rest
  | .prop _ _ rest =>
    have := decWellFormed strings rest
    inferInstanceAs (Decidable (_ ∧ _))
  | .node _ body rest =>
    have := decWellFormed strings body
    have := decWellFormed strings rest
    inferInstanceAs (Decidable (_ ∧ _ ∧ _ ∧ _))

/-- The child of that name of a node whose body begins at word `i`: its body, and
where that begins. -/
def child (name : List UInt8) : Body → Nat → Option (Body × Nat)
  | .done, _ => none
  | .nop rest, i => rest.child name (i + 1)
  | .prop off value rest, i => rest.child name (i + (Tok.prop off value).size)
  | .node n body rest, i =>
    if n = name then some (body, i + (Tok.start n).size)
    else rest.child name (i + (Tok.start n).size + body.size + 1)

/-- The property of that name of a node whose body begins at word `i`: where its
value is. -/
def value (strings name : List UInt8) : Body → Nat → Option Nat
  | .done, _ => none
  | .nop rest, i => rest.value strings name (i + 1)
  | .prop off v rest, i =>
    if cstring strings off.toNat = name then some (i + 3)
    else rest.value strings name (i + (Tok.prop off v).size)
  | .node n body rest, i => rest.value strings name (i + (Tok.start n).size + body.size + 1)

def lookup (strings prop : List UInt8) : List (List UInt8) → Body → Nat → Option Nat
  | [], b, i => b.value strings prop i
  | name :: comps, b, i => match b.child name i with
    | none => none
    | some (c, j) => c.lookup strings prop comps j

theorem toks_fine {m : Blocks} (h : WellFormed m.strings b) : ∀ t ∈ b.toks, t.Fine m := by
  induction b with
  | done => simp [toks]
  | nop rest ih =>
    rintro t (_ | ⟨_, ht⟩)
    · trivial
    · exact ih h t ht
  | prop off value rest ih =>
    rintro t (_ | ⟨_, ht⟩)
    · exact h.1
    · exact ih h.2 t ht
  | node name body rest ihb ihr =>
    obtain ⟨hn, -, hb, hr⟩ := h
    intro t ht
    rw [toks, List.mem_cons, List.mem_append, List.mem_cons] at ht
    rcases ht with rfl | ht | rfl | ht
    · exact hn
    · exact ihb hb t ht
    · trivial
    · exact ihr hr t ht

end Body

structure Path where
  comps : List (List UInt8)
  prop : List UInt8
  comps_plain : ∀ n ∈ comps, Plain n ∧ n ≠ []
  prop_plain : Plain prop ∧ prop ≠ []

def pathBytes (comps : List (List UInt8)) (prop : List UInt8) : List UInt8 :=
  comps.flatMap (slash :: ·) ++ slash :: prop

inductive BootProp where
  | dataSize
  | load
  | entry
  | sigAlgo
  | sigValue
  deriving DecidableEq, Repr

def BootProp.path : BootProp → Path
  | .dataSize =>
    ⟨[ascii "images", ascii "uboot"], ascii "data-size", by decide +kernel, by decide +kernel⟩
  | .load => ⟨[ascii "images", ascii "uboot"], ascii "load", by decide +kernel, by decide +kernel⟩
  | .entry =>
    ⟨[ascii "images", ascii "uboot"], ascii "entry", by decide +kernel, by decide +kernel⟩
  | .sigAlgo =>
    ⟨[ascii "images", ascii "uboot", ascii "signature"], ascii "algo", by decide +kernel,
      by decide +kernel⟩
  | .sigValue =>
    ⟨[ascii "images", ascii "uboot", ascii "signature"], ascii "value", by decide +kernel,
      by decide +kernel⟩

theorem fdtPathNextName_slash (hn : Plain name) (hne : name ≠ []) (s : List UInt8) :
    fdtPathNextName (name ++ slash :: s) = .ok (some (slash :: s)) := by
  induction name with
  | nil => exact absurd rfl hne
  | cons c name ih =>
    have hc : c ≠ slash := (hn c (by simp)).2
    cases name with
    | nil =>
      cases s with
      | nil => simp [fdtPathNextName, hc]
      | cons d s => simp [fdtPathNextName, hc]
    | cons d name =>
      have := ih (fun x hx => hn x (by simp [hx])) (by simp)
      simpa [fdtPathNextName, hc] using this

theorem fdtPathNextName_plain (hn : Plain name) (hne : name ≠ []) :
    fdtPathNextName name = .ok none := by
  induction name with
  | nil => exact absurd rfl hne
  | cons c name ih =>
    have hc : c ≠ slash := (hn c (by simp)).2
    cases name with
    | nil => simp [fdtPathNextName, hc]
    | cons d name =>
      have := ih (fun x hx => hn x (by simp [hx])) (by simp)
      simpa [fdtPathNextName, hc] using this

theorem pathBytes_slash (comps : List (List UInt8)) (prop : List UInt8) :
    ∃ s, pathBytes comps prop = slash :: s := by
  cases comps with
  | nil => exact ⟨prop, rfl⟩
  | cons c comps => exact ⟨_, rfl⟩

theorem enter_comp (hn : Plain name ∧ name ≠ []) (i : Nat) :
    enter (some i) (pathBytes (name :: comps) prop) =
      .next ⟨.node (name ++ pathBytes comps prop) (pathBytes comps prop), i, 0⟩ := by
  obtain ⟨s, hs⟩ := pathBytes_slash comps prop
  have hbytes : pathBytes (name :: comps) prop = slash :: (name ++ pathBytes comps prop) := by
    simp [pathBytes]
  rw [hbytes, enter, if_pos rfl, hs, fdtPathNextName_slash hn.1 hn.2]
  rfl

theorem enter_prop (hp : Plain prop ∧ prop ≠ []) (i : Nat) :
    enter (some i) (pathBytes [] prop) = .next ⟨.prop prop, i, 0⟩ := by
  have hbytes : pathBytes [] prop = slash :: prop := rfl
  rw [hbytes, enter, if_pos rfl, fdtPathNextName_plain hp.1 hp.2]
  rfl

theorem enter_path (hc : ∀ n ∈ comps, Plain n ∧ n ≠ []) (hp : Plain prop ∧ prop ≠ []) (i : Nat) :
    ∃ call, enter (some i) (pathBytes comps prop) = .next ⟨call, i, 0⟩ := by
  cases comps with
  | nil => exact ⟨_, enter_prop hp i⟩
  | cons name comps => exact ⟨_, enter_comp (hc name (by simp)) i⟩

-- ---------------------------------------------------------------------------
-- The walk along a path
-- ---------------------------------------------------------------------------

def forward (strings prop : List UInt8) : List (List UInt8) → List Tok → Nat → Option Nat
  | [], ts, i => seekProp strings prop 0 ts i
  | name :: comps, ts, i => match seekNode name ts i with
    | none => none
    | some (ts', j) => forward strings prop comps ts' j

def forwardNames (strings prop : List UInt8) : List (List UInt8) → List Tok → Nat → List (List UInt8)
  | [], ts, _ => seekPropNames strings prop 0 ts
  | name :: comps, ts, i => seekNodeNames name ts ++
    match seekNode name ts i with
    | none => []
    | some (ts', j) => forwardNames strings prop comps ts' j

theorem path_leads {m : Blocks} (comps : List (List UInt8))
    (hc : ∀ n ∈ comps, Plain n ∧ n ≠ []) (hp : Plain prop ∧ prop ≠ []) (hat : m.At i (layout ts))
    (hts : ∀ t ∈ ts, t.Fine m) :
    ∃ call, enter (some i) (pathBytes comps prop) = .next ⟨call, i, 0⟩ ∧
      Passes m ⟨call, i, 0⟩ (forwardNames m.strings prop comps ts i)
        (.ret (forward m.strings prop comps ts i)) := by
  induction comps generalizing i ts with
  | nil =>
    refine ⟨_, enter_prop hp i, ?_⟩
    have hlen : 0 + (layout ts).length < 2 ^ 32 := by
      have := congrArg List.length hat
      rw [List.length_drop] at this
      have := m.sized
      omega
    exact prop_leads (fun c hc => (hp.1 c hc).1) hat hts 0 hlen
  | cons name comps ih =>
    have hn := hc name (by simp)
    have hc' : ∀ n ∈ comps, Plain n ∧ n ≠ [] := fun n h => hc n (by simp [h])
    refine ⟨_, enter_comp hn i, ?_⟩
    have hcall : ∀ c, Frame.pass m ⟨.node (name ++ pathBytes comps prop) (pathBytes comps prop), c⟩ =
        findNodePass m (name ++ pathBytes comps prop) c := fun _ => rfl
    have hnode := node_leads hcall hn.1 (.inr (pathBytes_slash comps prop)) hat hts
      (enter_path hc' hp) 0
    rw [forward, forwardNames]
    cases hseek : seekNode name ts i with
    | none =>
      rw [hseek] at hnode
      rwa [List.append_nil]
    | some found =>
      obtain ⟨ts', j⟩ := found
      obtain ⟨hat', hsub⟩ := seekNode_at hat hseek
      obtain ⟨call, he, hrest⟩ := ih hc' hat' fun t ht => hts t (hsub t ht)
      rw [hseek, Option.map_some, Call.resume, he] at hnode
      exact hnode.append hrest

theorem seekNode_root (n i : Nat) (ts : List Tok) :
    seekNode [] (List.replicate n .nop ++ .start [] :: ts) i = some (ts, i + n + 2) ∧
      seekNodeNames [] (List.replicate n .nop ++ .start [] :: ts) = [[]] := by
  induction n generalizing i with
  | zero => exact ⟨rfl, rfl⟩
  | succ n ih =>
    rw [List.replicate_succ, List.cons_append]
    obtain ⟨hs, hn⟩ := ih (i + 1)
    refine ⟨?_, hn⟩
    rw [seekNode, show i + Tok.nop.size = i + 1 from rfl, hs]
    · congr 2
      omega
    · simp

theorem root_leads {m : Blocks}
    (hat : m.At 0 (layout (List.replicate before .nop ++ .start [] :: ts)))
    (hts : ∀ t ∈ List.replicate before .nop ++ .start [] :: ts, t.Fine m) (path : Path) :
    Passes m ⟨.root (pathBytes path.comps path.prop), 0, 0⟩
      (forwardNames m.strings path.prop path.comps ts (before + 2))
      (.ret (forward m.strings path.prop path.comps ts (before + 2))) := by
  have hcall : ∀ c, Frame.pass m ⟨.root (pathBytes path.comps path.prop), c⟩ =
      findNodePass m ([] ++ []) c := fun _ => rfl
  obtain ⟨hseek, hnames⟩ := seekNode_root before 0 ts
  rw [Nat.zero_add] at hseek
  obtain ⟨hat', hsub⟩ := seekNode_at hat hseek
  obtain ⟨call, he, hrest⟩ := path_leads path.comps path.comps_plain path.prop_plain hat'
    fun t ht => hts t (hsub t ht)
  have hroot := node_leads hcall (by simp [Plain]) (.inl rfl) hat hts
    (enter_path path.comps_plain path.prop_plain) 0
  rw [hseek, hnames, Option.map_some, Call.resume, he] at hroot
  rcases hroot with ⟨-, hl⟩ | ⟨⟨n, hm, ha⟩, -⟩
  · exact .head hl hrest
  · -- the root's own name is empty
    rw [List.mem_singleton] at hm
    exact absurd hm ha.1

-- ---------------------------------------------------------------------------
-- Whole trees
-- ---------------------------------------------------------------------------

/-- The struct block of a tree: one root node with an empty name, with no-ops
around it. -/
def rootToks (before : Nat) (body : Body) (after : Nat) : List Tok :=
  List.replicate before .nop ++ .start [] :: (body.toks ++ .stop :: List.replicate after .nop)

structure Tree where
  before : Nat
  body : Body
  after : Nat
  strings : List UInt8
  wellFormed : body.WellFormed strings
  sized : (layout (rootToks before body after)).length < 2 ^ 30

namespace Tree

def toks (T : Tree) : List Tok := rootToks T.before T.body T.after

def blocks (T : Tree) : Blocks := ⟨layout T.toks, T.strings, T.sized⟩

def bodyStart (T : Tree) : Nat := T.before + 2

def lookup (T : Tree) (path : Path) : Option Nat :=
  T.body.lookup T.strings path.prop path.comps T.bodyStart

def insideRoot (T : Tree) : List Tok := T.body.toks ++ .stop :: List.replicate T.after .nop

def forward (T : Tree) (path : Path) : Option Nat :=
  Fdt.forward T.strings path.prop path.comps T.insideRoot T.bodyStart

def forwardNames (T : Tree) (path : Path) : List (List UInt8) :=
  Fdt.forwardNames T.strings path.prop path.comps T.insideRoot T.bodyStart

/-- `fdt_get_prop` returns, and returns the value of the property the path names. -/
def LookupCorrect (T : Tree) (path : Path) : Prop :=
  ∃ fuel, fdtGetProp T.blocks (pathBytes path.comps path.prop) fuel = .ret (T.lookup path)

theorem toks_fine (T : Tree) : ∀ t ∈ T.toks, t.Fine T.blocks := by
  intro t ht
  simp only [toks, rootToks, List.mem_append, List.mem_cons, List.mem_replicate] at ht
  rcases ht with ⟨-, rfl⟩ | rfl | ht | rfl | ⟨-, rfl⟩
  · trivial
  · exact fun c hc => absurd hc List.not_mem_nil
  · exact Body.toks_fine (m := T.blocks) T.wellFormed t ht
  · trivial
  · trivial

theorem getProp_leads (T : Tree) (path : Path) :
    Passes T.blocks ⟨.root (pathBytes path.comps path.prop), 0, 0⟩ (T.forwardNames path)
      (.ret (T.forward path)) := by
  have hat : T.blocks.At 0 (layout T.toks) := rfl
  exact root_leads hat T.toks_fine path

theorem lookupCorrect_iff (T : Tree) (path : Path) :
    T.LookupCorrect path ↔
      (∀ n ∈ T.forwardNames path, ¬ Aligned n) ∧ T.forward path = T.lookup path := by
  have hiff : T.LookupCorrect path ↔
      Loop.Leads (getPropPass T.blocks) ⟨.root (pathBytes path.comps path.prop), 0, 0⟩
        (.ret (T.lookup path)) := Iff.rfl
  rw [hiff]
  rcases T.getProp_leads path with ⟨hal, hl⟩ | ⟨⟨n, hm, ha⟩, j, hl⟩
  · constructor
    · intro h
      have := hl.unique h rfl rfl
      exact ⟨hal, Outcome.ret.inj this⟩
    · rintro ⟨-, he⟩
      rwa [he] at hl
  · refine iff_of_false ?_ fun h => h.1 n hm ha
    intro h
    cases hl.unique h rfl rfl

end Tree

def twoSiblings : Tree where
  before := 0
  body := .node (ascii "a") .done (.node (ascii "b") (.prop 0 [0, 0, 0, 1] .done) .done)
  after := 0
  strings := ascii "p" ++ [0]
  wellFormed := by decide +kernel
  sized := by decide +kernel

def nestedPath : Path where
  comps := [ascii "a", ascii "b"]
  prop := ascii "p"
  comps_plain := by decide +kernel
  prop_plain := by decide +kernel

/-- `a` has no child `b`, but `/a/b/p` gives the property of `/b`. -/
theorem twoSiblings_wrong_node : ¬ twoSiblings.LookupCorrect nestedPath := by
  rintro ⟨fuel, h⟩
  have hlookup : twoSiblings.lookup nestedPath = none := by decide
  have hrun : fdtGetProp twoSiblings.blocks (pathBytes nestedPath.comps nestedPath.prop) 10 =
      .ret (some 10) := by decide
  rw [hlookup] at h
  exact absurd (Loop.Leads.unique ⟨fuel, h⟩ ⟨10, hrun⟩ rfl rfl) (by simp)

end BismarckPreloader.Fdt
