import Mathlib.Data.Finset.Basic
import Mathlib.Data.Finset.Card
import Mathlib.Data.Finset.Max
import Mathlib.Logic.Relation

/-!
# Exploring a graph with a set of nodes to visit

`explore` takes the least node out of a set, adds it to the nodes that were found, and adds nodes
to the set.  Which ones are added may depend on what was found; as long as they are neighbours,
and every neighbour that was not found is among them the first time a node is taken, all that
can be reached is found (`explore_spec`).
-/

namespace MicroP4
namespace Foundations

open Relation

variable {α : Type*} [LinearOrder α]

/-- Exploring for at most `fuel` nodes.  `expand` gets a node and the nodes found before it. -/
def explore (expand : α → Finset α → Finset α) : (fuel : ℕ) → (work out : Finset α) →
    Option (Finset α)
  | fuel, work, out =>
      if h : work.Nonempty then
        match fuel with
        | 0 => none
        | fuel + 1 =>
            explore expand fuel (work.erase (work.min' h) ∪ expand (work.min' h) out)
              (insert (work.min' h) out)
      else some out

/-- What an expansion may add: neighbours, all of those not found when a node comes for the first
time, and none of those found when it comes again. -/
structure Expands (next : α → Finset α) (expand : α → Finset α → Finset α) : Prop where
  subset : ∀ x out, expand x out ⊆ next x
  cover : ∀ x out, x ∉ out → ∀ y ∈ next x, y ∈ insert x out ∨ y ∈ expand x out
  fresh : ∀ x out, x ∈ out → ∀ y ∈ expand x out, y ∉ out

/-- The neighbours of what was found were found or are still to be visited. -/
def Covered (next : α → Finset α) (work out : Finset α) : Prop :=
  ∀ v ∈ out, ∀ w ∈ next v, w ∈ out ∨ w ∈ work

variable {next : α → Finset α} {expand : α → Finset α → Finset α} {work out nodes : Finset α}

theorem Covered.step (h : Covered next work out) (he : Expands next expand) (x : α) :
    Covered next (work.erase x ∪ expand x out) (insert x out) := by
  have hold : ∀ w, w ∈ out ∨ w ∈ work →
      w ∈ insert x out ∨ w ∈ work.erase x ∪ expand x out := by
    intro w hw
    by_cases hwx : w = x
    · exact Or.inl (hwx ▸ Finset.mem_insert_self x out)
    · exact hw.imp (fun ho => Finset.mem_insert_of_mem ho) fun hmem =>
        Finset.mem_union_left _ (Finset.mem_erase.mpr ⟨hwx, hmem⟩)
  intro v hv w hw
  by_cases hvo : v ∈ out
  · exact hold w (h v hvo w hw)
  · obtain rfl := (Finset.mem_insert.mp hv).resolve_right hvo
    exact (he.cover v out hvo w hw).imp_right fun hmem => Finset.mem_union_right _ hmem

/-- How much there is left to do, for nodes in a finite set. -/
def remaining (nodes work out : Finset α) : ℕ :=
  (nodes \ out).card * (nodes.card + 1) + work.card

/-- A step leaves less to do. -/
theorem Covered.remaining_lt (h : Covered next work out) (he : Expands next expand) {x : α}
    (hwork : work ⊆ nodes) (hnext : ∀ v ∈ nodes, next v ⊆ nodes) (hx : x ∈ work) :
    work.erase x ∪ expand x out ⊆ nodes ∧
      remaining nodes (work.erase x ∪ expand x out) (insert x out) < remaining nodes work out := by
  have hsub : work.erase x ∪ expand x out ⊆ nodes :=
    Finset.union_subset ((Finset.erase_subset _ _).trans hwork)
      ((he.subset x out).trans (hnext x (hwork hx)))
  refine ⟨hsub, ?_⟩
  unfold remaining
  by_cases hxo : x ∈ out
  · -- nothing is added to the work but what is there
    have herase : work.erase x ∪ expand x out ⊆ work.erase x := by
      refine Finset.union_subset subset_rfl fun y hy => Finset.mem_erase.mpr ⟨?_, ?_⟩
      · exact fun hyx => he.fresh x out hxo y hy (hyx ▸ hxo)
      · exact (h x hxo y (he.subset x out hy)).resolve_left (he.fresh x out hxo y hy)
    rw [Finset.insert_eq_of_mem hxo]
    have hcard := Finset.card_le_card herase
    have hlt := Finset.card_erase_lt_of_mem hx
    omega
  · have hmem : x ∈ nodes \ out := Finset.mem_sdiff.mpr ⟨hwork hx, hxo⟩
    have hsdiff : nodes \ insert x out = (nodes \ out).erase x := by
      ext y
      simp only [Finset.mem_sdiff, Finset.mem_insert, Finset.mem_erase, not_or]
      tauto
    rw [hsdiff, Finset.card_erase_of_mem hmem]
    obtain ⟨k, hk⟩ := Nat.exists_eq_succ_of_ne_zero (Finset.card_ne_zero_of_mem hmem)
    have hcard := Finset.card_le_card hsub
    rw [hk, Nat.succ_sub_one, Nat.succ_mul]
    omega

/-- With enough fuel, what can be reached from the work is found. -/
theorem explore_spec (he : Expands next expand) (hnext : ∀ v ∈ nodes, next v ⊆ nodes) {fuel : ℕ}
    (hwork : work ⊆ nodes) (h : Covered next work out) (hfuel : remaining nodes work out ≤ fuel) :
    ∃ r, explore expand fuel work out = some r ∧
      ∀ v, v ∈ r ↔ v ∈ out ∨ ∃ x ∈ work, ReflTransGen (fun a b => b ∈ next a) x v := by
  induction fuel generalizing work out with
  | zero =>
      have hcard : work.card = 0 := by
        unfold remaining at hfuel
        omega
      obtain rfl := Finset.card_eq_zero.mp hcard
      refine ⟨out, by rw [explore, dif_neg Finset.not_nonempty_empty], fun v => ?_⟩
      exact ⟨Or.inl, fun hv => hv.elim id fun ⟨x, hx, _⟩ => absurd hx (Finset.notMem_empty x)⟩
  | succ fuel ih =>
      by_cases hne : work.Nonempty
      · rw [explore, dif_pos hne]
        dsimp only
        have hx := work.min'_mem hne
        generalize work.min' hne = x at hx
        obtain ⟨hsub, hlt⟩ := h.remaining_lt he hwork hnext hx
        obtain ⟨r, heq, hr⟩ := ih hsub (h.step he x) (by omega)
        refine ⟨r, heq, fun v => ?_⟩
        rw [hr]
        constructor
        · rintro (hv | ⟨y, hy, hyv⟩)
          · rcases Finset.mem_insert.mp hv with rfl | hv
            · exact Or.inr ⟨v, hx, .refl⟩
            · exact Or.inl hv
          · rcases Finset.mem_union.mp hy with hy | hy
            · exact Or.inr ⟨y, Finset.mem_of_mem_erase hy, hyv⟩
            · exact Or.inr ⟨x, hx, .head (he.subset x out hy) hyv⟩
        · -- what is found stays closed
          rintro (hv | ⟨y, hy, hyv⟩)
          · exact Or.inl (Finset.mem_insert_of_mem hv)
          · have hclosed : ∀ a, ReflTransGen (fun a b => b ∈ next a) y a →
                a ∈ insert x out ∨ ∃ z ∈ work.erase x ∪ expand x out,
                  ReflTransGen (fun a b => b ∈ next a) z a := by
              intro a hya
              induction hya with
              | refl =>
                  by_cases hyx : y = x
                  · exact Or.inl (hyx ▸ Finset.mem_insert_self x out)
                  · exact Or.inr ⟨y, Finset.mem_union_left _ (Finset.mem_erase.mpr ⟨hyx, hy⟩),
                      .refl⟩
              | tail _ hedge ih =>
                  rcases ih with ha | ⟨z, hz, hza⟩
                  · exact (h.step he x _ ha _ hedge).imp_right fun hmem => ⟨_, hmem, .refl⟩
                  · exact Or.inr ⟨z, hz, hza.tail hedge⟩
            exact hclosed v hyv
      · rw [Finset.not_nonempty_iff_eq_empty] at hne
        subst hne
        refine ⟨out, by rw [explore, dif_neg Finset.not_nonempty_empty], fun v => ?_⟩
        exact ⟨Or.inl, fun hv => hv.elim id fun ⟨x, hx, _⟩ => absurd hx (Finset.notMem_empty x)⟩

end Foundations
end MicroP4
