import BismarckPreloader.Lib.Loops

/-!
# Commands of the boot loader

The upgrade commands compose command lines and run them. A command line is modelled by
what it asks for. What the environment holds and what a command returns depends on the
commands that were run before, so both are functions of that history.

`Issues` is the rule to reason about code that runs commands: every command it runs has
one property, and its result another.
-/

namespace BismarckPreloader.Upgrade

def digitOf (c : UInt8) : Option UInt32 :=
  if 0x30 ≤ c ∧ c ≤ 0x39 then some (c - 0x30).toUInt32
  else if 0x41 ≤ c ∧ c ≤ 0x46 then some (c - 0x41 + 10).toUInt32
  else if 0x61 ≤ c ∧ c ≤ 0x66 then some (c - 0x61 + 10).toUInt32
  else none

def digits (base : UInt32) : UInt32 → List UInt8 → UInt32
  | result, [] => result
  | result, c :: cs =>
    match digitOf c with
    | some value => if value < base then digits base (result * base + value) cs else result
    | none => result

/-- `simple_strtoul`, with a base that is given. -/
def simpleStrtoul (s : List UInt8) (base : UInt32) : UInt32 :=
  match s with
  | 0x30 :: x :: cs =>
    if base = 16 ∧ (x = 0x78 ∨ x = 0x58) then digits base 0 cs else digits base 0 s
  | _ => digits base 0 s

-- ---------------------------------------------------------------------------
-- Commands
-- ---------------------------------------------------------------------------

/-- The command lines, with the values that are printed into them. `update` and `boot`
erase a partition and write to it. -/
inductive Command where
  | sfProbe
  | update (base sz src len : UInt32)
  | updatePart (part : String) (src len : UInt32)
  | boot (base sz src len : UInt32)
  | erase (base sz : UInt32)
  | setVol (vol : String)
  | checkVol
  | useVol (vol : String)
  | resizeVol (vol : List UInt8) (sz : UInt32)
  | ubiWrite (src : UInt32) (vol : String) (len : UInt32)
  | ubiClean (vol : String)
  | ubiRead (dst : UInt32) (vol : String)
  | ubiDetach
  | empty
  deriving DecidableEq

namespace Command

def sources : Command → List (UInt32 × UInt32)
  | .update _ _ src len => [(src, len)]
  | .updatePart _ src len => [(src, len)]
  | .boot _ _ src len => [(src, len)]
  | .ubiWrite src _ len => [(src, len)]
  | _ => []

def loads : Command → Bool
  | .ubiRead _ _ => true
  | _ => false

end Command

structure World where
  env : List Command → String → Option (List UInt8)
  result : List Command → Command → Int

abbrev Cmd (α : Type) := List Command → α × List Command

namespace Cmd

variable {α β : Type}

def done (a : α) : Cmd α := fun h => (a, h)

def andThen (m : Cmd α) (f : α → Cmd β) : Cmd β := fun h => f (m h).1 (m h).2

def check (m k : Cmd Int) : Cmd Int := m.andThen fun r => if r ≠ 0 then done (-1) else k

def fallback (m k : Cmd Int) : Cmd Int := m.andThen fun r => if r ≠ 0 then k else done 0

def Issues (P : Command → Prop) (Q : α → Prop) (m : Cmd α) : Prop :=
  ∀ h, Q (m h).1 ∧ ∃ cs, (m h).2 = h ++ cs ∧ ∀ c ∈ cs, P c

variable {P : Command → Prop} {Q : α → Prop} {R : β → Prop} {m : Cmd α}

theorem Issues.done {a : α} (h : Q a) : Issues P Q (done a) :=
  fun hist => ⟨h, [], (List.append_nil hist).symm, fun _ hc => nomatch hc⟩

theorem Issues.andThen {f : α → Cmd β} (hm : Issues P Q m) (hf : ∀ a, Q a → Issues P R (f a)) :
    Issues P R (m.andThen f) := by
  intro h
  obtain ⟨hq, cs, hcs, hp⟩ := hm h
  obtain ⟨hr, cs', hcs', hp'⟩ := hf _ hq (m h).2
  refine ⟨hr, cs ++ cs', ?_, fun c hc => (List.mem_append.mp hc).elim (hp c) (hp' c)⟩
  rw [← List.append_assoc, ← hcs]
  exact hcs'

theorem Issues.mono {Q' : α → Prop} (hm : Issues P Q m) (h : ∀ a, Q a → Q' a) :
    Issues P Q' m := fun hist => ⟨h _ (hm hist).1, (hm hist).2⟩

theorem Issues.ite {c : Prop} [Decidable c] {m' : Cmd α} (hm : c → Issues P Q m)
    (hm' : ¬c → Issues P Q m') : Issues P Q (if c then m else m') := by
  split
  next hc => exact hm hc
  next hc => exact hm' hc

theorem Issues.check {Q : Int → Prop} {m k : Cmd Int} (hm : Issues P (fun _ => True) m)
    (hk : Issues P Q k) (he : Q (-1)) : Issues P Q (check m k) :=
  hm.andThen fun _ _ => .ite (fun _ => .done he) fun _ => hk

theorem Issues.fallback {m k : Cmd Int} (hm : Issues P (fun _ => True) m)
    (hk : Issues P (fun _ => True) k) : Issues P (fun _ => True) (fallback m k) :=
  hm.andThen fun _ _ => .ite (fun _ => hk) fun _ => .done trivial

end Cmd

namespace World

variable (w : World)

def runCommand (c : Command) : Cmd Int := fun h => (w.result h c, h ++ [c])

def envGet (name : String) : Cmd (Option (List UInt8)) := fun h => (w.env h name, h)

variable {w} {P : Command → Prop}

theorem issues_runCommand {c : Command} (h : P c) :
    Cmd.Issues P (fun _ => True) (w.runCommand c) :=
  fun _ => ⟨trivial, [c], rfl, fun _ hc => List.mem_singleton.mp hc ▸ h⟩

theorem issues_envGet {name : String} : Cmd.Issues P (fun _ => True) (w.envGet name) :=
  fun h => ⟨trivial, [], (List.append_nil h).symm, fun _ hc => nomatch hc⟩

variable (w)

/-- `do_flash_update`, which both upgrade commands have. -/
def doFlashUpdate (addr size : String) (src srcSize : UInt32) : Cmd Int :=
  (w.envGet addr).andThen fun
  | none => .done (-1)
  | some base => (w.envGet size).andThen fun
    | none => .done (-1)
    | some sz =>
      let partBase := simpleStrtoul base 16
      let partSz := simpleStrtoul sz 16
      if partSz = 0 then .done (-1)
      else if partSz < srcSize then .done (-1)
      else (w.runCommand (.update partBase partSz src srcSize)).andThen fun _ => .done 0

/-- `do_flash_update_part`. -/
def doFlashUpdatePart (part : String) (src srcSize : UInt32) : Cmd Int :=
  w.runCommand (.updatePart part src srcSize)

variable {w}

theorem issues_doFlashUpdate {addr size : String} {src srcSize : UInt32}
    (h : ∀ base sz, P (.update base sz src srcSize)) :
    Cmd.Issues P (fun _ => True) (w.doFlashUpdate addr size src srcSize) := by
  refine issues_envGet.andThen fun v _ => ?_
  cases v with
  | none => exact .done trivial
  | some base =>
    refine issues_envGet.andThen fun v _ => ?_
    cases v with
    | none => exact .done trivial
    | some sz =>
      exact .ite (fun _ => .done trivial) fun _ => .ite (fun _ => .done trivial) fun _ =>
        (issues_runCommand (h _ _)).andThen fun _ _ => .done trivial

theorem issues_doFlashUpdatePart {part : String} {src srcSize : UInt32}
    (h : P (.updatePart part src srcSize)) :
    Cmd.Issues P (fun _ => True) (w.doFlashUpdatePart part src srcSize) :=
  issues_runCommand h

end World

end BismarckPreloader.Upgrade
