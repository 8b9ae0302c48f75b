import MicroP4.Analysis.ControlBlockInterpreter

/-!
# What the interpreter records

The records only depend on the tree of conditionals as the visitor walks it: the body with
tables and actions written in place at their first use, nothing in place of a later use,
and without the conditions of `if` statements and the expressions of `switch` statements,
which the visitor does not enter.

Replicating the vector at every conditional makes one element for each choice of a branch
at every conditional of this tree, also at those inside of branches that are not chosen.
The operations the element gets are the ones `Walk.Recorded` describes.
-/

namespace MicroP4
namespace Analysis

mutual

/-- The tree of conditionals the visitor walks. -/
inductive Walk (H : Type) where
  | skip
  | op (o : HdrOp H)
  | seq (s t : Walk H)
  | branch (bs : Branches H)

/-- The branches of a conditional. -/
inductive Branches (H : Type) where
  | nil
  | cons (b : Walk H) (bs : Branches H)

end

variable {H N P : Type}

/-- The number of branches. -/
def Branches.length : Branches H → ℕ
  | .nil => 0
  | .cons _ bs => bs.length + 1

section OfStmt

variable [DecidableEq N]

mutual

/-- The tree of a statement, and the nodes visited after it. -/
def Stmt.walk : Stmt H N P → List N → Walk H × List N
  | .skip, vis => (.skip, vis)
  | .op o, vis => (.op o, vis)
  | .seq s t, vis => (.seq (s.walk vis).1 (t.walk (s.walk vis).2).1, (t.walk (s.walk vis).2).2)
  | .ite _ t e, vis =>
      (.branch (.cons (t.walk vis).1 (.cons (e.walk (t.walk vis).2).1 .nil)),
        (e.walk (t.walk vis).2).2)
  | .switch _ _ cs, vis => (.branch (cs.walk vis).1, (cs.walk vis).2)
  | .apply n al, vis =>
      if n ∈ vis then (.skip, vis) else (.branch (al.walk (n :: vis)).1, (al.walk (n :: vis)).2)
  | .call n b, vis => if n ∈ vis then (.skip, vis) else b.walk (n :: vis)
  | .pkg n _, vis => (.skip, if n ∈ vis then vis else n :: vis)

/-- The branches of an action list. -/
def ActionList.walk : ActionList H N P → List N → Branches H × List N
  | .nil, vis => (.nil, vis)
  | .cons n b l, vis =>
      let w := if n ∈ vis then (.skip, vis) else b.walk (n :: vis)
      (.cons w.1 (l.walk w.2).1, (l.walk w.2).2)

/-- The branches of a `switch`. -/
def Cases.walk : Cases H N P → List N → Branches H × List N
  | .nil, vis => (.nil, vis)
  | .cons _ b l, vis => (.cons (b.walk vis).1 (l.walk (b.walk vis).2).1, (l.walk (b.walk vis).2).2)
  | .fall _ l, vis => (.cons .skip (l.walk vis).1, (l.walk vis).2)

end

/-- The tree of a control body. -/
def Stmt.tree (body : Stmt H N P) : Walk H := (body.walk []).1

end OfStmt

/-! ## Choosing branches -/

/-- A branch for each conditional, which is addressed by its path in the tree. -/
abbrev Choice := List ℕ → ℕ

/-- The choice below a child. -/
def Choice.sub (c : Choice) (i : ℕ) : Choice := fun a => c (i :: a)

/-- The choice with a branch at the root and choices below two children. -/
def Choice.join (k : ℕ) (c₀ c₁ : Choice) : Choice
  | [] => k
  | 0 :: a => c₀ a
  | _ :: a => c₁ a

/-- Whether a tree contains a conditional. -/
def Walk.hasBranch : Walk H → Bool
  | .skip => false
  | .op _ => false
  | .seq s t => s.hasBranch || t.hasBranch
  | .branch _ => true

/-- The operations that stand behind the last conditional. -/
def Walk.Trailing (o : HdrOp H) : Walk H → Prop
  | .skip => False
  | .op o' => o = o'
  | .seq s t => t.Trailing o ∨ (t.hasBranch = false ∧ s.Trailing o)
  | .branch _ => False

mutual

/-- The choice picks a branch that exists at every conditional. -/
def Walk.Picks (c : Choice) : Walk H → Prop
  | .skip => True
  | .op _ => True
  | .seq s t => s.Picks (c.sub 0) ∧ t.Picks (c.sub 1)
  | .branch bs => c [] < bs.length ∧ bs.Picks (c.sub 0)

/-- The choice picks branches that exist inside of branches. -/
def Branches.Picks (c : Choice) : Branches H → Prop
  | .nil => True
  | .cons b bs => b.Picks (c.sub 0) ∧ bs.Picks (c.sub 1)

end

mutual

/-- The choice picks the first branch at every conditional. -/
def Walk.PicksFirst (c : Choice) : Walk H → Prop
  | .skip => True
  | .op _ => True
  | .seq s t => s.PicksFirst (c.sub 0) ∧ t.PicksFirst (c.sub 1)
  | .branch bs => c [] = 0 ∧ bs.PicksFirst (c.sub 0)

/-- The choice picks first branches inside of branches. -/
def Branches.PicksFirst (c : Choice) : Branches H → Prop
  | .nil => True
  | .cons b bs => b.PicksFirst (c.sub 0) ∧ bs.PicksFirst (c.sub 1)

end

mutual

/-- The operations recorded under a choice.  One in front of a conditional is recorded
under every choice: it goes to all elements of the vector. -/
def Walk.Recorded (c : Choice) (o : HdrOp H) : Walk H → Prop
  | .skip => False
  | .op _ => False
  | .seq s t => s.Recorded (c.sub 0) o ∨ t.Recorded (c.sub 1) o ∨
      (t.hasBranch = true ∧ s.Trailing o)
  | .branch bs => bs.Recorded (c []) (c.sub 0) o 0 True

/-- The operations recorded inside of the branches from `i` on, where branch `own` is
chosen.  One at the end of a branch is recorded if the branch is chosen and every
conditional inside of it and of the branches in front of it (`first`) chooses its first
branch: the range of the branch was fixed before these conditionals replicated the
vector. -/
def Branches.Recorded (own : ℕ) (c : Choice) (o : HdrOp H) (i : ℕ) (first : Prop) :
    Branches H → Prop
  | .nil => False
  | .cons b bs => b.Recorded (c.sub 0) o ∨
      (b.Trailing o ∧ own = i ∧ first ∧ b.PicksFirst (c.sub 0)) ∨
      bs.Recorded own (c.sub 1) o (i + 1) (first ∧ b.PicksFirst (c.sub 0))

end

/-! ## Numbering the choices -/

mutual

/-- The number of choices. -/
def Walk.count : Walk H → ℕ
  | .skip => 1
  | .op _ => 1
  | .seq s t => s.count * t.count
  | .branch bs => bs.length * bs.count

/-- The number of choices inside of branches. -/
def Branches.count : Branches H → ℕ
  | .nil => 1
  | .cons b bs => b.count * bs.count

end

mutual

/-- The position of a choice: conditionals visited earlier count for less. -/
def Walk.code (c : Choice) : Walk H → ℕ
  | .skip => 0
  | .op _ => 0
  | .seq s t => s.code (c.sub 0) + s.count * t.code (c.sub 1)
  | .branch bs => c [] + bs.length * bs.code (c.sub 0)

/-- The position of the choice inside of branches. -/
def Branches.code (c : Choice) : Branches H → ℕ
  | .nil => 0
  | .cons b bs => b.code (c.sub 0) + b.count * bs.code (c.sub 1)

end

/-- A position of two digits is below the product of the bases. -/
theorem digits_lt {a b m n : ℕ} (ha : a < m) (hb : b < n) : a + m * b < m * n := by
  have h : m * (b + 1) ≤ m * n := Nat.mul_le_mul_left m hb
  rw [Nat.mul_succ] at h
  omega

/-- A position of two digits is zero if both are. -/
theorem digits_eq_zero {a b m : ℕ} (ha : a < m) : a + m * b = 0 ↔ a = 0 ∧ b = 0 := by
  rw [Nat.add_eq_zero_iff, Nat.mul_eq_zero]
  constructor
  · rintro ⟨rfl, hm | hb⟩
    · omega
    · exact ⟨rfl, hb⟩
  · rintro ⟨rfl, rfl⟩
    exact ⟨rfl, Or.inr rfl⟩

mutual

theorem Walk.code_lt {c : Choice} : ∀ {s : Walk H}, s.Picks c → s.code c < s.count
  | .skip, _ => Nat.one_pos
  | .op _, _ => Nat.one_pos
  | .seq _ _, h => digits_lt (Walk.code_lt h.1) (Walk.code_lt h.2)
  | .branch _, h => digits_lt h.1 (Branches.code_lt h.2)

theorem Branches.code_lt {c : Choice} : ∀ {bs : Branches H}, bs.Picks c → bs.code c < bs.count
  | .nil, _ => Nat.one_pos
  | .cons _ _, h => digits_lt (Walk.code_lt h.1) (Branches.code_lt h.2)

end

mutual

/-- The choice of first branches is at position zero. -/
theorem Walk.code_eq_zero_iff {c : Choice} :
    ∀ {s : Walk H}, s.Picks c → (s.code c = 0 ↔ s.PicksFirst c)
  | .skip, _ => by simp [Walk.code, Walk.PicksFirst]
  | .op _, _ => by simp [Walk.code, Walk.PicksFirst]
  | .seq s t, h => by
      rw [Walk.code, digits_eq_zero (Walk.code_lt h.1), Walk.code_eq_zero_iff h.1,
        Walk.code_eq_zero_iff h.2, Walk.PicksFirst]
  | .branch bs, h => by
      rw [Walk.code, digits_eq_zero h.1, Branches.code_eq_zero_iff h.2, Walk.PicksFirst]

theorem Branches.code_eq_zero_iff {c : Choice} :
    ∀ {bs : Branches H}, bs.Picks c → (bs.code c = 0 ↔ bs.PicksFirst c)
  | .nil, _ => by simp [Branches.code, Branches.PicksFirst]
  | .cons b bs, h => by
      rw [Branches.code, digits_eq_zero (Walk.code_lt h.1), Walk.code_eq_zero_iff h.1,
        Branches.code_eq_zero_iff h.2, Branches.PicksFirst]

end

/-- The digits of a position. -/
theorem exists_digits {m n k : ℕ} (h : k < m * n) : ∃ a < m, ∃ b < n, a + m * b = k := by
  have hm : 0 < m := Nat.pos_of_mul_pos_right (Nat.zero_lt_of_lt h)
  exact ⟨k % m, Nat.mod_lt k hm, k / m, Nat.div_lt_of_lt_mul h, Nat.mod_add_div k m⟩

mutual

/-- Every position is the one of a choice. -/
theorem Walk.exists_code_eq : ∀ {s : Walk H} {k : ℕ}, k < s.count → ∃ c, s.Picks c ∧ s.code c = k
  | .skip, k, h => ⟨fun _ => 0, trivial, (Nat.lt_one_iff.mp h).symm⟩
  | .op _, k, h => ⟨fun _ => 0, trivial, (Nat.lt_one_iff.mp h).symm⟩
  | .seq s t, k, h => by
      obtain ⟨a, ha, b, hb, rfl⟩ := exists_digits h
      obtain ⟨c₀, h₀, rfl⟩ := Walk.exists_code_eq ha
      obtain ⟨c₁, h₁, rfl⟩ := Walk.exists_code_eq hb
      exact ⟨Choice.join 0 c₀ c₁, ⟨h₀, h₁⟩, rfl⟩
  | .branch bs, k, h => by
      obtain ⟨a, ha, b, hb, rfl⟩ := exists_digits h
      obtain ⟨c₀, h₀, rfl⟩ := Branches.exists_code_eq hb
      exact ⟨Choice.join a c₀ c₀, ⟨ha, h₀⟩, rfl⟩

theorem Branches.exists_code_eq :
    ∀ {bs : Branches H} {k : ℕ}, k < bs.count → ∃ c, bs.Picks c ∧ bs.code c = k
  | .nil, k, h => ⟨fun _ => 0, trivial, (Nat.lt_one_iff.mp h).symm⟩
  | .cons b bs, k, h => by
      obtain ⟨m, hm, n, hn, rfl⟩ := exists_digits h
      obtain ⟨c₀, h₀, rfl⟩ := Walk.exists_code_eq hm
      obtain ⟨c₁, h₁, rfl⟩ := Branches.exists_code_eq hn
      exact ⟨Choice.join 0 c₀ c₁, ⟨h₀, h₁⟩, rfl⟩

end

end Analysis
end MicroP4
