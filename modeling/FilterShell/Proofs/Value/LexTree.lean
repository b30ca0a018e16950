import Mathlib.Data.List.Lex
import Mathlib.Order.Compare
import Mathlib.Order.Lattice

/-!
# Lexicographic trees

Trees with a head and two lists of subtrees at every node, over a linear order of heads.  They are
compared by the heads, then by the first lists, then by the second ones.  This is a linear order again, and on
the lists it is the order that lists have anyway: `LexTree.node_lt_node`.
-/

namespace FilterShell

inductive LexTree (α : Type) where
  | node (head : α) (first second : List (LexTree α))

namespace LexTree

variable {α : Type} [LinearOrder α]

mutual

/-- Compares by the head, then by the two lists. -/
def order : LexTree α → LexTree α → Ordering
  | .node h xs ys, .node h' xs' ys' =>
    (cmp h h').then ((orderAll xs xs').then (orderAll ys ys'))

/-- Compares by the first difference, a shorter list first. -/
def orderAll : List (LexTree α) → List (LexTree α) → Ordering
  | [], []         => .eq
  | [], _ :: _     => .lt
  | _ :: _, []     => .gt
  | x :: r, y :: s => (order x y).then (orderAll r s)

end

/-! ### Laws -/

theorem order_node (h h' : α) (xs xs' ys ys' : List (LexTree α)) :
    order (.node h xs ys) (.node h' xs' ys') =
      (cmp h h').then ((orderAll xs xs').then (orderAll ys ys')) := rfl

mutual

theorem order_eq : ∀ {a b : LexTree α}, order a b = .eq ↔ a = b
  | .node h xs ys, .node h' xs' ys' => by
    rw [order_node, Ordering.then_eq_eq, Ordering.then_eq_eq, cmp_eq_eq_iff, orderAll_eq, orderAll_eq,
      node.injEq]

theorem orderAll_eq : ∀ {xs ys : List (LexTree α)}, orderAll xs ys = .eq ↔ xs = ys
  | [], [] | [], _ :: _ | _ :: _, [] => by simp [orderAll]
  | x :: r, y :: s => by
    rw [orderAll, Ordering.then_eq_eq, order_eq, orderAll_eq, List.cons.injEq]

end

mutual

theorem order_swap : ∀ a b : LexTree α, (order a b).swap = order b a
  | .node h xs ys, .node h' xs' ys' => by
    rw [order_node, order_node, Ordering.swap_then, Ordering.swap_then, cmp_swap, orderAll_swap,
      orderAll_swap]

theorem orderAll_swap : ∀ xs ys : List (LexTree α), (orderAll xs ys).swap = orderAll ys xs
  | [], [] | [], _ :: _ | _ :: _, [] => rfl
  | x :: r, y :: s => by
    rw [orderAll, orderAll, Ordering.swap_then, order_swap, orderAll_swap]

end

mutual

theorem order_trans : ∀ {a b c : LexTree α}, order a b = .lt → order b c = .lt → order a c = .lt
  | .node h xs ys, .node h' xs' ys', .node h'' xs'' ys'', hab, hbc => by
    rw [order_node, Ordering.then_eq_lt, Ordering.then_eq_lt, cmp_eq_lt_iff, cmp_eq_eq_iff]
      at hab hbc ⊢
    rcases hab with hab | ⟨rfl, hab⟩
    · rcases hbc with hbc | ⟨rfl, -⟩
      · exact .inl (hab.trans hbc)
      · exact .inl hab
    · rcases hbc with hbc | ⟨rfl, hbc⟩
      · exact .inl hbc
      · refine .inr ⟨rfl, ?_⟩
        rcases hab with hab | ⟨hxs, hab⟩
        · rcases hbc with hbc | ⟨hxs, -⟩
          · exact .inl (orderAll_trans hab hbc)
          · exact .inl (orderAll_eq.1 hxs ▸ hab)
        · rcases hbc with hbc | ⟨hxs', hbc⟩
          · exact .inl ((orderAll_eq.1 hxs).symm ▸ hbc)
          · exact .inr ⟨orderAll_eq.2 ((orderAll_eq.1 hxs).trans (orderAll_eq.1 hxs')),
              orderAll_trans hab hbc⟩

theorem orderAll_trans : ∀ {xs ys zs : List (LexTree α)},
    orderAll xs ys = .lt → orderAll ys zs = .lt → orderAll xs zs = .lt
  | [], _ :: _, _ :: _, _, _ => rfl
  | x :: r, y :: s, z :: t, hxy, hyz => by
    simp only [orderAll, Ordering.then_eq_lt] at hxy hyz ⊢
    rcases hxy with hxy | ⟨hxy, hr⟩
    · rcases hyz with hyz | ⟨hyz, -⟩
      · exact .inl (order_trans hxy hyz)
      · exact .inl (order_eq.1 hyz ▸ hxy)
    · rcases hyz with hyz | ⟨hyz, hs⟩
      · exact .inl ((order_eq.1 hxy).symm ▸ hyz)
      · exact .inr ⟨order_eq.2 ((order_eq.1 hxy).trans (order_eq.1 hyz)), orderAll_trans hr hs⟩

end

/-! ### The linear order -/

theorem order_self (a : LexTree α) : order a a = .eq := order_eq.2 rfl

theorem order_gt {a b : LexTree α} : order a b = .gt ↔ order b a = .lt := by
  rw [← order_swap a b]
  cases order a b <;> decide

instance : LinearOrder (LexTree α) where
  le a b := order a b ≠ .gt
  lt a b := order a b = .lt
  le_refl a := by rw [order_self]; decide
  le_trans a b c hab hbc hac := by
    rw [order_gt] at hac
    rcases hcb : order b c with _ | _ | _
    · exact hab (order_gt.2 (order_trans hcb hac))
    · exact hab (order_gt.2 (order_eq.1 hcb ▸ hac))
    · exact hbc hcb
  le_antisymm a b hab hba := by
    rw [ne_eq, order_gt] at hba
    refine order_eq.1 ?_
    cases h : order a b with
    | lt => exact absurd h hba
    | eq => rfl
    | gt => exact absurd h hab
  le_total a b := by
    by_cases h : order a b = .gt
    · exact .inr (by rw [order_gt.1 h]; decide)
    · exact .inl h
  lt_iff_le_not_ge a b := by
    rw [ne_eq, ne_eq, not_not, order_gt, order_gt]
    refine ⟨fun h => ⟨fun h' => ?_, h⟩, fun h => h.2⟩
    exact absurd (order_trans h h') (by rw [order_self]; decide)
  toDecidableLE a b := inferInstanceAs (Decidable (order a b ≠ .gt))
  toDecidableLT a b := inferInstanceAs (Decidable (order a b = .lt))
  toDecidableEq a b := decidable_of_iff _ order_eq

theorem orderAll_lt : ∀ {xs ys : List (LexTree α)}, orderAll xs ys = .lt ↔ xs < ys
  | [], [] | [], _ :: _ | _ :: _, [] => by simp [orderAll]
  | x :: r, y :: s => by
    rw [orderAll, Ordering.then_eq_lt, orderAll_lt, order_eq, List.cons_lt_cons_iff]
    rfl

/-- **Trees are ordered by the head, then by the first list, then by the second.** -/
theorem node_lt_node {h h' : α} {xs xs' ys ys' : List (LexTree α)} :
    node h xs ys < node h' xs' ys' ↔ h < h' ∨ h = h' ∧ (xs < xs' ∨ xs = xs' ∧ ys < ys') := by
  change order _ _ = .lt ↔ _
  rw [order_node, Ordering.then_eq_lt, Ordering.then_eq_lt, cmp_eq_lt_iff, cmp_eq_eq_iff, orderAll_lt,
    orderAll_lt, orderAll_eq]

end LexTree

end FilterShell
