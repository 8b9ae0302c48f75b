import MicroP4.Analysis.ValidityCoverage

/-!
# Which operations are recorded at all

The records of a control mention an operation if a conditional stands behind it or it stands
in a branch, as long as every conditional has a branch (`exists_mem_controlRecords_iff`).  The
operations behind the last conditional are still pending when the visitor ends.
-/

namespace MicroP4
namespace Analysis

variable {H N P : Type}

mutual

/-- Every conditional of a tree has a branch. -/
def Walk.Nonempty : Walk H → Prop
  | .skip => True
  | .op _ => True
  | .seq s t => s.Nonempty ∧ t.Nonempty
  | .branch bs => 0 < bs.length ∧ bs.Nonempty

/-- Every conditional inside of branches has a branch. -/
def Branches.Nonempty : Branches H → Prop
  | .nil => True
  | .cons b bs => b.Nonempty ∧ bs.Nonempty

end

mutual

/-- The operation stands in a tree, and not only behind its last conditional. -/
def Walk.Flushed (o : HdrOp H) : Walk H → Prop
  | .skip => False
  | .op _ => False
  | .seq s t => s.Flushed o ∨ t.Flushed o ∨ (t.hasBranch = true ∧ s.Trailing o)
  | .branch bs => bs.Flushed o

/-- The operation stands in a branch. -/
def Branches.Flushed (o : HdrOp H) : Branches H → Prop
  | .nil => False
  | .cons b bs => b.Flushed o ∨ b.Trailing o ∨ bs.Flushed o

end

/-! ## Choices under which it is recorded -/

mutual

theorem Walk.nonempty_of_picks {c : Choice} : ∀ {s : Walk H}, s.Picks c → s.Nonempty
  | .skip, _ => trivial
  | .op _, _ => trivial
  | .seq _ _, h => ⟨Walk.nonempty_of_picks h.1, Walk.nonempty_of_picks h.2⟩
  | .branch _, h => ⟨Nat.zero_lt_of_lt h.1, Branches.nonempty_of_picks h.2⟩

theorem Branches.nonempty_of_picks {c : Choice} : ∀ {bs : Branches H}, bs.Picks c → bs.Nonempty
  | .nil, _ => trivial
  | .cons _ _, h => ⟨Walk.nonempty_of_picks h.1, Branches.nonempty_of_picks h.2⟩

end

mutual

theorem Walk.exists_picksFirst : ∀ {s : Walk H}, s.Nonempty → ∃ c, s.Picks c ∧ s.PicksFirst c
  | .skip, _ => ⟨fun _ => 0, trivial, trivial⟩
  | .op _, _ => ⟨fun _ => 0, trivial, trivial⟩
  | .seq _ _, h => by
      obtain ⟨c, hc, hfirst⟩ := Walk.exists_picksFirst h.1
      obtain ⟨c', hc', hfirst'⟩ := Walk.exists_picksFirst h.2
      exact ⟨Choice.join 0 c c', ⟨hc, hc'⟩, hfirst, hfirst'⟩
  | .branch _, h => by
      obtain ⟨c, hc, hfirst⟩ := Branches.exists_picksFirst h.2
      exact ⟨Choice.join 0 c c, ⟨h.1, hc⟩, rfl, hfirst⟩

theorem Branches.exists_picksFirst : ∀ {bs : Branches H}, bs.Nonempty →
    ∃ c, bs.Picks c ∧ bs.PicksFirst c
  | .nil, _ => ⟨fun _ => 0, trivial, trivial⟩
  | .cons _ _, h => by
      obtain ⟨c, hc, hfirst⟩ := Walk.exists_picksFirst h.1
      obtain ⟨c', hc', hfirst'⟩ := Branches.exists_picksFirst h.2
      exact ⟨Choice.join 0 c c', ⟨hc, hc'⟩, hfirst, hfirst'⟩

end

mutual

theorem Walk.flushed_of_recorded {c : Choice} {o : HdrOp H} : ∀ {s : Walk H},
    s.Recorded c o → s.Flushed o
  | .seq _ _, h => by
      rcases h with h | h | h
      · exact Or.inl (Walk.flushed_of_recorded h)
      · exact Or.inr (Or.inl (Walk.flushed_of_recorded h))
      · exact Or.inr (Or.inr h)
  | .branch _, h => Branches.flushed_of_recorded h

theorem Branches.flushed_of_recorded {c : Choice} {o : HdrOp H} : ∀ {bs : Branches H}
    {own i : ℕ} {first : Prop}, bs.Recorded own c o i first → bs.Flushed o
  | .cons _ _, _, _, _, h => by
      rcases h with h | h | h
      · exact Or.inl (Walk.flushed_of_recorded h)
      · exact Or.inr (Or.inl h.1)
      · exact Or.inr (Or.inr (Branches.flushed_of_recorded h))

end

mutual

theorem Walk.exists_recorded {o : HdrOp H} : ∀ {s : Walk H}, s.Nonempty → s.Flushed o →
    ∃ c, s.Picks c ∧ s.Recorded c o
  | .seq _ _, hne, h => by
      obtain ⟨c, hc, -⟩ := Walk.exists_picksFirst hne.1
      obtain ⟨c', hc', -⟩ := Walk.exists_picksFirst hne.2
      rcases h with h | h | h
      · obtain ⟨d, hd, hrec⟩ := Walk.exists_recorded hne.1 h
        exact ⟨Choice.join 0 d c', ⟨hd, hc'⟩, Or.inl hrec⟩
      · obtain ⟨d, hd, hrec⟩ := Walk.exists_recorded hne.2 h
        exact ⟨Choice.join 0 c d, ⟨hc, hd⟩, Or.inr (Or.inl hrec)⟩
      · exact ⟨Choice.join 0 c c', ⟨hc, hc'⟩, Or.inr (Or.inr h)⟩
  | .branch _, hne, h => by
      obtain ⟨k, c, hk, hc, hrec⟩ := Branches.exists_recorded hne.2 h 0 trivial
      rw [Nat.zero_add] at hrec
      exact ⟨Choice.join k c c, ⟨hk, hc⟩, hrec⟩

/-- The branch it stands in is picked, and first branches wherever else there is a choice. -/
theorem Branches.exists_recorded {o : HdrOp H} : ∀ {bs : Branches H}, bs.Nonempty →
    bs.Flushed o → ∀ (i : ℕ) {first : Prop}, first →
    ∃ k c, k < bs.length ∧ bs.Picks c ∧ bs.Recorded (i + k) c o i first
  | .cons _ bs, hne, h, i, first, hfirst => by
      obtain ⟨c, hc, hcfirst⟩ := Walk.exists_picksFirst hne.1
      obtain ⟨c', hc', -⟩ := Branches.exists_picksFirst hne.2
      rcases h with h | h | h
      · obtain ⟨d, hd, hrec⟩ := Walk.exists_recorded hne.1 h
        exact ⟨0, Choice.join 0 d c', Nat.succ_pos _, ⟨hd, hc'⟩, Or.inl hrec⟩
      · exact ⟨0, Choice.join 0 c c', Nat.succ_pos _, ⟨hc, hc'⟩,
          Or.inr (Or.inl ⟨h, rfl, hfirst, hcfirst⟩)⟩
      · obtain ⟨k, d, hk, hd, hrec⟩ := Branches.exists_recorded hne.2 h (i + 1)
          (And.intro hfirst hcfirst)
        refine ⟨k + 1, Choice.join 0 c d, Nat.succ_lt_succ hk, ⟨hc, hd⟩, Or.inr (Or.inr ?_)⟩
        rw [← Nat.add_assoc, Nat.add_right_comm]
        exact hrec

end

/-! ## The records of a control -/

variable [DecidableEq H] [DecidableEq N] (D : Sizes H P)

/-- An operation is in a record of the control exactly if it is flushed somewhere. -/
theorem exists_mem_controlRecords_iff (body : Stmt H N P) (o : HdrOp H) :
    (∃ r ∈ controlRecords D body, o ∈ r) ↔ body.tree.Nonempty ∧ body.tree.Flushed o := by
  constructor
  · rintro ⟨r, hr, ho⟩
    obtain ⟨⟨c, hc, hmem⟩, -⟩ := (mem_controlRecords D body r).mp hr
    exact ⟨Walk.nonempty_of_picks hc, Walk.flushed_of_recorded ((hmem o).mp ho)⟩
  · rintro ⟨hne, h⟩
    obtain ⟨c, hc, hrec⟩ := Walk.exists_recorded hne h
    obtain ⟨r, -, hmem⟩ := getElem?_visit_init D body hc
    have ho : o ∈ r := (hmem o).mpr hrec
    exact ⟨r, (mem_controlRecords D body r).mpr ⟨⟨c, hc, hmem⟩, o, ho⟩, ho⟩

end Analysis
end MicroP4
