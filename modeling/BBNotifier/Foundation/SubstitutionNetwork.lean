import Mathlib.Algebra.Group.Equiv.Basic
import Mathlib.Algebra.Group.End

/-! # Substitution–permutation networks

A block is masked with a key, goes through rounds of a substitution, a linear
layer and another key, and a last round without the linear layer. The network is
undone by one of the same shape, whose inner keys have been through the inverse
of the linear layer.
-/

namespace BBNotifier.Foundation.SubstitutionNetwork

variable {Block : Type} [AddCommGroup Block]

/-- The network with a substitution and a linear layer, given as functions. -/
def network (substitute mix : Block → Block) (first : Block) (inner : List Block) (last : Block)
    (block : Block) : Block :=
  substitute (inner.foldl (fun block key => mix (substitute block) + key) (block + first)) + last

variable (substitute : Equiv.Perm Block) (mix : Block ≃+ Block)

/-- One inner round of the inverse takes the substitution off the block a round
made, and puts the one before it on. -/
theorem inverse_round (block key : Block) :
    mix.symm (substitute.symm (substitute (mix (substitute block) + key))) + -mix.symm key =
      substitute block := by
  rw [Equiv.symm_apply_apply, map_add, AddEquiv.symm_apply_apply, add_neg_cancel_right]

theorem inverse_rounds (inner : List Block) (block : Block) :
    (inner.reverse.map fun key => -mix.symm key).foldl
        (fun block key => mix.symm (substitute.symm block) + key)
        (substitute (inner.foldl (fun block key => mix (substitute block) + key) block)) =
      substitute block := by
  induction inner generalizing block with
  | nil => rfl
  | cons key rest ih =>
      rw [List.foldl_cons, List.reverse_cons, List.map_append, List.foldl_append, ih]
      exact inverse_round substitute mix block key

/-- The inverse network, with its keys in reverse order. -/
theorem network_network (first last : Block) (inner : List Block) (block : Block) :
    network substitute.symm mix.symm (-last) (inner.reverse.map fun key => -mix.symm key) (-first)
      (network substitute mix first inner last block) = block := by
  rw [network, network, add_neg_cancel_right, inverse_rounds, Equiv.symm_apply_apply,
    add_neg_cancel_right]

/-- It is an inverse from the other side, too. -/
theorem network_network_symm (first last : Block) (inner : List Block) (block : Block) :
    network substitute mix first inner last (network substitute.symm mix.symm (-last)
      (inner.reverse.map fun key => -mix.symm key) (-first) block) = block := by
  have h := network_network substitute.symm mix.symm (-last) (-first)
    (inner.reverse.map fun key => -mix.symm key) block
  have hinner : ((inner.reverse.map fun key => -mix.symm key).reverse.map
      fun key => -mix.symm.symm key) = inner := by
    simp only [List.map_reverse, List.reverse_reverse, List.map_map]
    conv_rhs => rw [← List.map_id inner]
    apply List.map_congr_left
    intro key _
    rw [Function.comp_apply, map_neg, neg_neg]
    exact mix.apply_symm_apply key
  rw [hinner, neg_neg, neg_neg] at h
  exact h

end BBNotifier.Foundation.SubstitutionNetwork
