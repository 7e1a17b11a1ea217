import Mathlib.Data.List.Nodup
import Mathlib.Data.List.Basic
import Mathlib.Tactic

/-!
# Forests of linked nodes

Nodes that carry lists of other nodes form a forest when no node is listed twice and the
links run in no circle.  `Forest` is its shape as data, `Spans` says that a link function has
this shape.  A program that follows the links is then a recursion over the shape.
-/

set_option autoImplicit false

namespace MacSim.Computation

/-- A forest: the root of its first tree, the forest below this root, and the other trees. -/
inductive Forest (α : Type) where
  | nil
  | cons (root : α) (below rest : Forest α)
  deriving DecidableEq

namespace Forest

variable {α : Type}

/-- The roots of the trees. -/
def roots : Forest α → List α
  | nil => []
  | cons a _ rest => a :: rest.roots

/-- All nodes. -/
def nodes : Forest α → List α
  | nil => []
  | cons a below rest => a :: (below.nodes ++ rest.nodes)

/-- The number of nodes on the longest way down. -/
def height : Forest α → ℕ
  | nil => 0
  | cons _ below rest => max (below.height + 1) rest.height

/-- The trees of two forests. -/
def append : Forest α → Forest α → Forest α
  | nil, G => G
  | cons a below rest, G => cons a below (rest.append G)

def isNil : Forest α → Bool
  | nil => true
  | cons _ _ _ => false

/-- The links below every node of the forest are those of a link function. -/
def Spans (next : α → List α) : Forest α → Prop
  | nil => True
  | cons a below rest => next a = below.roots ∧ below.Spans next ∧ rest.Spans next

/-- The empty forest has no roots. -/
@[simp] theorem roots_nil : (nil : Forest α).roots = [] := rfl

/-- The first tree gives the first root. -/
@[simp] theorem roots_cons (a : α) (below rest : Forest α) :
    (cons a below rest).roots = a :: rest.roots := rfl

/-- The empty forest has no nodes. -/
@[simp] theorem nodes_nil : (nil : Forest α).nodes = [] := rfl

/-- The nodes of a forest are the first root, what is below it, and the rest. -/
@[simp] theorem nodes_cons (a : α) (below rest : Forest α) :
    (cons a below rest).nodes = a :: (below.nodes ++ rest.nodes) := rfl

/-- The roots of two forests follow each other. -/
@[simp] theorem roots_append (F G : Forest α) : (F.append G).roots = F.roots ++ G.roots := by
  induction F with
  | nil => rfl
  | cons a below rest _ ihrest => simp [append, ihrest]

/-- The nodes of two forests follow each other. -/
@[simp] theorem nodes_append (F G : Forest α) : (F.append G).nodes = F.nodes ++ G.nodes := by
  induction F with
  | nil => rfl
  | cons a below rest _ ihrest => simp [append, ihrest]

/-- Only the empty forest passes the test for it. -/
theorem isNil_iff {F : Forest α} : F.isNil = true ↔ F = nil := by
  cases F <;> simp [isNil]

/-- A forest with one root is one tree. -/
theorem eq_cons_nil {F : Forest α} {a : α} (h : F.roots = [a]) :
    ∃ below, F = cons a below nil := by
  cases F with
  | nil => cases h
  | cons b below rest =>
      obtain ⟨rfl, hrest⟩ := List.cons.inj h
      cases rest with
      | nil => exact ⟨below, rfl⟩
      | cons c x y => cases hrest

/-- Roots are nodes. -/
theorem mem_nodes_of_mem_roots {F : Forest α} {a : α} (h : a ∈ F.roots) : a ∈ F.nodes := by
  induction F with
  | nil => exact h
  | cons b below rest _ ihrest =>
      rcases List.mem_cons.mp h with rfl | h
      · exact List.mem_cons_self
      · exact List.mem_cons_of_mem _ (List.mem_append_right _ (ihrest h))

/-- Where no node is repeated, no root is. -/
theorem nodup_roots {F : Forest α} (h : F.nodes.Nodup) : F.roots.Nodup := by
  induction F with
  | nil => exact List.nodup_nil
  | cons b below rest _ ihrest =>
      obtain ⟨hb, happ⟩ := List.nodup_cons.mp h
      refine List.nodup_cons.mpr ⟨fun hmem => ?_, ihrest happ.of_append_right⟩
      exact hb (List.mem_append_right _ (mem_nodes_of_mem_roots hmem))

/-- A way down visits every node at most once. -/
theorem height_le_length (F : Forest α) : F.height ≤ F.nodes.length := by
  induction F with
  | nil => exact le_rfl
  | cons a below rest ihbelow ihrest =>
      simp only [height, nodes_cons, List.length_cons, List.length_append]
      omega

/-- Two forests that follow the links do so together. -/
theorem Spans.append {next : α → List α} {F G : Forest α} (hF : F.Spans next)
    (hG : G.Spans next) : (F.append G).Spans next := by
  induction F with
  | nil => exact hG
  | cons a below rest _ ihrest => exact ⟨hF.1, hF.2.1, ihrest hF.2.2⟩

/-- Only the links of the nodes of the forest matter. -/
theorem Spans.congr {next next' : α → List α} {F : Forest α} (h : F.Spans next)
    (hnext : ∀ a ∈ F.nodes, next' a = next a) : F.Spans next' := by
  induction F with
  | nil => exact h
  | cons a below rest ihbelow ihrest =>
      obtain ⟨ha, hbelow, hrest⟩ := h
      refine ⟨?_, ihbelow hbelow fun b hb => ?_, ihrest hrest fun b hb => ?_⟩
      · rw [hnext a List.mem_cons_self]
        exact ha
      · exact hnext b (List.mem_cons_of_mem a (List.mem_append_left _ hb))
      · exact hnext b (List.mem_cons_of_mem a (List.mem_append_right _ hb))

end Forest

end MacSim.Computation
