import BismarckPreloader.Lib.Loops

/-!
# The order of initialisation

`run_init_level` walks the table of the preloader's own init functions (lplr)
and that of the platform (plr) with one cursor each. The linker sorts both
tables by level; the walk calls the entry of the lower level, the lplr entry on
a tie. A cursor is the list of entries from it to the end of its table.
-/

namespace BismarckPreloader.InitLevel

open Loop

inductive Owner where
  | lplr
  | plr
  deriving DecidableEq, Repr

/-- `init_table_entry_t`; what a function does is of no concern to the order. -/
structure Entry (φ : Type) where
  level : UInt32
  fn : φ
  deriving DecidableEq, Repr

abbrev Call (φ : Type) := Owner × Entry φ

structure Cursors (φ : Type) where
  lp : List (Entry φ)
  pp : List (Entry φ)
  called : List (Call φ)

variable {φ : Type} {l p e : Entry φ} {lp pp : List (Entry φ)} {called out : List (Call φ)}

def initStep : Cursors φ → Outcome (Cursors φ) (List (Call φ)) Empty
  | ⟨[], [], called⟩ => .ret called
  | ⟨l :: lp, p :: pp, called⟩ =>
    if l.level ≤ p.level then .next ⟨lp, p :: pp, called ++ [(.lplr, l)]⟩
    else .next ⟨l :: lp, pp, called ++ [(.plr, p)]⟩
  | ⟨l :: lp, [], called⟩ => .next ⟨lp, [], called ++ [(.lplr, l)]⟩
  | ⟨[], p :: pp, called⟩ => .next ⟨[], pp, called ++ [(.plr, p)]⟩

def RunInitLevel (lplr plr : List (Entry φ)) (out : List (Call φ)) : Prop :=
  Leads initStep ⟨lplr, plr, []⟩ (.ret out)

-- ---------------------------------------------------------------------------
-- A stable merge of two tables
-- ---------------------------------------------------------------------------

structure InitTable (φ : Type) where
  entries : List (Entry φ)
  sorted : entries.Pairwise (fun a b => a.level ≤ b.level)

def callsOf (o : Owner) (out : List (Call φ)) : List (Entry φ) :=
  out.filterMap fun call => if call.1 = o then some call.2 else none

@[simp] theorem callsOf_nil (o : Owner) : callsOf o ([] : List (Call φ)) = [] := rfl

@[simp] theorem callsOf_cons_self (o : Owner) : callsOf o ((o, e) :: out) = e :: callsOf o out := by
  simp [callsOf]

@[simp] theorem callsOf_lplr_cons_plr : callsOf .lplr ((.plr, e) :: out) = callsOf .lplr out := by
  simp [callsOf]

@[simp] theorem callsOf_plr_cons_lplr : callsOf .plr ((.lplr, e) :: out) = callsOf .plr out := by
  simp [callsOf]

theorem mem_callsOf {call : Call φ} (h : call ∈ out) : call.2 ∈ callsOf call.1 out := by
  simp only [callsOf, List.mem_filterMap]
  exact ⟨call, h, by simp⟩

/-- The calls of each table are its entries in their order, each of them once;
levels do not fall, and a plr entry runs before an lplr entry only when its
level is the lower one. -/
structure StableMerge (lplr plr : List (Entry φ)) (out : List (Call φ)) : Prop where
  lplr : callsOf .lplr out = lplr
  plr : callsOf .plr out = plr
  levels : out.Pairwise fun a b => a.2.level ≤ b.2.level
  ties : out.Pairwise fun a b => a.1 = .plr → b.1 = .lplr → a.2.level < b.2.level

namespace StableMerge

theorem nil : StableMerge ([] : List (Entry φ)) [] [] := ⟨rfl, rfl, .nil, .nil⟩

theorem mem (h : StableMerge lp pp out) {call : Call φ} (hc : call ∈ out) :
    (call.1 = .lplr ∧ call.2 ∈ lp) ∨ (call.1 = .plr ∧ call.2 ∈ pp) := by
  have hm := mem_callsOf hc
  obtain ⟨o, e⟩ := call
  cases o with
  | lplr => exact .inl ⟨rfl, h.lplr ▸ hm⟩
  | plr => exact .inr ⟨rfl, h.plr ▸ hm⟩

theorem cons_lplr (h : StableMerge lp pp out) (hl : ∀ e ∈ lp, l.level ≤ e.level)
    (hp : ∀ e ∈ pp, l.level ≤ e.level) : StableMerge (l :: lp) pp ((.lplr, l) :: out) where
  lplr := by rw [callsOf_cons_self, h.lplr]
  plr := by rw [callsOf_plr_cons_lplr, h.plr]
  levels := by
    refine .cons (fun call hc => ?_) h.levels
    rcases h.mem hc with ⟨-, hm⟩ | ⟨-, hm⟩
    · exact hl _ hm
    · exact hp _ hm
  ties := .cons (fun _ _ ho => nomatch ho) h.ties

theorem cons_plr (h : StableMerge lp pp out) (hl : ∀ e ∈ lp, p.level < e.level)
    (hp : ∀ e ∈ pp, p.level ≤ e.level) : StableMerge lp (p :: pp) ((.plr, p) :: out) where
  lplr := by rw [callsOf_lplr_cons_plr, h.lplr]
  plr := by rw [callsOf_cons_self, h.plr]
  levels := by
    refine .cons (fun call hc => ?_) h.levels
    rcases h.mem hc with ⟨-, hm⟩ | ⟨-, hm⟩
    · exact UInt32.le_of_lt (hl _ hm)
    · exact hp _ hm
  ties := by
    refine .cons (fun call hc _ ho => ?_) h.ties
    rcases h.mem hc with ⟨-, hm⟩ | ⟨hplr, -⟩
    · exact hl _ hm
    · simp [hplr] at ho

end StableMerge

-- The two cursors only ever move forward, so the induction is on what is left
-- of both tables together.
theorem init_run : ∀ (lp pp : List (Entry φ)) (called : List (Call φ)),
    lp.Pairwise (fun a b => a.level ≤ b.level) → pp.Pairwise (fun a b => a.level ≤ b.level) →
    ∃ out, Leads initStep ⟨lp, pp, called⟩ (.ret (called ++ out)) ∧ StableMerge lp pp out
  | [], [], called, _, _ => ⟨[], .one (by simp [initStep]), .nil⟩
  | l :: lp, [], called, hl, hp => by
    obtain ⟨hle, hl⟩ := List.pairwise_cons.mp hl
    obtain ⟨out, hrun, hm⟩ := init_run lp [] (called ++ [(.lplr, l)]) hl hp
    rw [List.append_assoc] at hrun
    exact ⟨_, .head rfl hrun, hm.cons_lplr hle (by simp)⟩
  | [], p :: pp, called, hl, hp => by
    obtain ⟨hle, hp⟩ := List.pairwise_cons.mp hp
    obtain ⟨out, hrun, hm⟩ := init_run [] pp (called ++ [(.plr, p)]) hl hp
    rw [List.append_assoc] at hrun
    exact ⟨_, .head rfl hrun, hm.cons_plr (by simp) hle⟩
  | l :: lp, p :: pp, called, hl, hp => by
    obtain ⟨hle, hl'⟩ := List.pairwise_cons.mp hl
    obtain ⟨hpe, hp'⟩ := List.pairwise_cons.mp hp
    by_cases h : l.level ≤ p.level
    · obtain ⟨out, hrun, hm⟩ := init_run lp (p :: pp) (called ++ [(.lplr, l)]) hl' hp
      rw [List.append_assoc] at hrun
      refine ⟨_, .head (if_pos h) hrun, hm.cons_lplr hle ?_⟩
      simp only [List.mem_cons, forall_eq_or_imp]
      exact ⟨h, fun e he => UInt32.le_trans h (hpe e he)⟩
    · obtain ⟨out, hrun, hm⟩ := init_run (l :: lp) pp (called ++ [(.plr, p)]) hl hp'
      rw [List.append_assoc] at hrun
      have hlt : p.level < l.level := UInt32.not_le.mp h
      refine ⟨_, .head (if_neg h) hrun, hm.cons_plr ?_ hpe⟩
      simp only [List.mem_cons, forall_eq_or_imp]
      exact ⟨hlt, fun e he => UInt32.lt_of_lt_of_le hlt (hle e he)⟩
termination_by lp pp => lp.length + pp.length

theorem run_init_level_stable_merge (lplr plr : InitTable φ) :
    ∃ out, RunInitLevel lplr.entries plr.entries out ∧
      StableMerge lplr.entries plr.entries out := by
  obtain ⟨out, hrun, hm⟩ := init_run lplr.entries plr.entries [] lplr.sorted plr.sorted
  exact ⟨out, hrun, hm⟩

theorem run_init_level_tie : ∃ lplr plr : InitTable Nat,
    lplr.entries = [⟨1, 10⟩, ⟨3, 11⟩] ∧ plr.entries = [⟨1, 20⟩, ⟨2, 21⟩] ∧
      ∃ out, RunInitLevel lplr.entries plr.entries out ∧
        StableMerge lplr.entries plr.entries out :=
  ⟨⟨[⟨1, 10⟩, ⟨3, 11⟩], by decide⟩, ⟨[⟨1, 20⟩, ⟨2, 21⟩], by decide⟩, rfl, rfl,
    run_init_level_stable_merge _ _⟩

end BismarckPreloader.InitLevel
