import Mathlib.Data.List.Count
import Mathlib.Data.Fintype.Basic
import Mathlib.Order.WellFounded
import Mathlib.Order.RelClasses
import Mathlib.Logic.Relation
import Mathlib.Data.Fintype.Card
import Mathlib.Data.Finite.Defs
import Mathlib.Data.Set.Finite.Basic
import Mathlib.Order.WellFoundedSet

/-! # Directed multigraphs as lists of edges

A finite directed multigraph on the natural numbers is the list of its edges, with repetition.
`succs E p` and `preds E c` list the ends of the edges out of `p` and into `c`, in the order of
`E`.

* `count_succs`: a pair of nodes has as many edges seen from one end as from the other.
* `countP_preds_cons`: what marking one more node takes away from the unmarked predecessors.
* `Acyclic`, with `acyclic_of_rank` (a rank that grows along every edge) and
  `exists_no_pred_of_acyclic` (a finite non-empty set of nodes has a member without a
  predecessor in it). -/

namespace EdgeList

variable (E : List (ℕ × ℕ))

/-- The nodes the edges out of `p` lead to. -/
def succs (p : ℕ) : List ℕ := (E.filter fun e => e.1 == p).map Prod.snd

/-- The nodes the edges into `c` come from. -/
def preds (c : ℕ) : List ℕ := (E.filter fun e => e.2 == c).map Prod.fst

variable {E}

theorem mem_succs {p c : ℕ} : c ∈ succs E p ↔ (p, c) ∈ E := by
  simp only [succs, List.mem_map, List.mem_filter, beq_iff_eq]
  constructor
  · rintro ⟨⟨a, b⟩, ⟨h, rfl⟩, rfl⟩
    exact h
  · intro h
    exact ⟨(p, c), ⟨h, rfl⟩, rfl⟩

theorem mem_preds {p c : ℕ} : p ∈ preds E c ↔ (p, c) ∈ E := by
  simp only [preds, List.mem_map, List.mem_filter, beq_iff_eq]
  constructor
  · rintro ⟨⟨a, b⟩, ⟨h, rfl⟩, rfl⟩
    exact h
  · intro h
    exact ⟨(p, c), ⟨h, rfl⟩, rfl⟩

theorem succs_append (E F : List (ℕ × ℕ)) (p : ℕ) : succs (E ++ F) p = succs E p ++ succs F p := by
  simp [succs]

theorem preds_append (E F : List (ℕ × ℕ)) (c : ℕ) : preds (E ++ F) c = preds E c ++ preds F c := by
  simp [preds]

theorem count_succs (E : List (ℕ × ℕ)) (p c : ℕ) : (succs E p).count c = (preds E c).count p := by
  induction E with
  | nil => rfl
  | cons e E ih =>
      obtain ⟨a, b⟩ := e
      rw [← List.singleton_append, succs_append, preds_append, List.count_append, List.count_append, ih]
      congr 1
      by_cases ha : a = p <;> by_cases hb : b = c <;> simp [succs, preds, ha, hb]

/-- The successors of a node come in increasing order when the edges do. -/
theorem succs_sorted (h : E.Pairwise fun e f => e.2 ≤ f.2) (p : ℕ) : (succs E p).Pairwise (· ≤ ·) := by
  unfold succs
  rw [List.pairwise_map]
  exact h.filter _

/-- Marking `i` removes the edges from `i` from those that come from unmarked nodes. -/
theorem countP_preds_cons {marked : List ℕ} {i : ℕ} (hi : i ∉ marked) (l : List ℕ) :
    l.countP (fun p => decide (p ∉ marked)) =
      l.countP (fun p => decide (p ∉ i :: marked)) + l.count i := by
  induction l with
  | nil => rfl
  | cons a l ih =>
      rw [List.countP_cons, List.countP_cons, List.count_cons, ih]
      by_cases ha : a = i
      · subst ha
        simp [hi]
        omega
      · simp [ha]
        omega

/-! ### Cycles -/

/-- There is an edge. -/
def Edge (E : List (ℕ × ℕ)) (p c : ℕ) : Prop := (p, c) ∈ E

/-- No path leads back to where it starts. -/
def Acyclic (E : List (ℕ × ℕ)) : Prop := ∀ v, ¬ Relation.TransGen (Edge E) v v

theorem acyclic_of_rank (f : ℕ → ℕ) (h : ∀ p c, (p, c) ∈ E → f p < f c) : Acyclic E := by
  have hlt : ∀ a b, Relation.TransGen (Edge E) a b → f a < f b := by
    intro a b hab
    induction hab with
    | single h1 => exact h _ _ h1
    | tail _ h1 ih => exact ih.trans (h _ _ h1)
  exact fun v hv => lt_irrefl _ (hlt v v hv)

/-- In an acyclic graph every non-empty finite set has a node without a predecessor in it. -/
theorem exists_no_pred_of_acyclic (h : Acyclic E) (U : Finset ℕ) (hU : U.Nonempty) :
    ∃ v ∈ U, ∀ p ∈ U, (p, v) ∉ E := by
  let r : U → U → Prop := fun a b => Relation.TransGen (Edge E) a b
  have htrans : IsTrans U r := ⟨fun a b c hab hbc => Relation.TransGen.trans hab hbc⟩
  have hirr : Std.Irrefl r := ⟨fun a => h a⟩
  have hwf : WellFounded r := Finite.wellFounded_of_trans_of_irrefl r
  obtain ⟨v, hv⟩ := hU
  obtain ⟨⟨m, hm⟩, -, hmin⟩ := hwf.has_min Set.univ ⟨⟨v, hv⟩, trivial⟩
  exact ⟨m, hm, fun p hp he => hmin ⟨p, hp⟩ trivial (.single he)⟩

end EdgeList
