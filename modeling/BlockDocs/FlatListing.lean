import BlockDocs.VisibleBlocks
import BlockDocs.PreOrder

/-!
# The flattened listing

A rebuilt index leaves out the blocks whose chain of parents has no end: they are
children, but of none that the recursion comes to.
-/

set_option autoImplicit false

namespace BlockDocs.FlatListing
open BlockDocs.InsertionMap BlockDocs.Wire BlockDocs.BlockStore BlockDocs.ClientRun
open BlockDocs.ClientIndex BlockDocs.ParentChain BlockDocs.ForestWalk BlockDocs.PreOrder
open BlockDocs.VisibleBlocks

variable {m : Blocks}

/-- Each block once whose chain of parents ends in a root, right before the blocks below
it, and the blocks under one parent in the order of their positions. -/
abbrev ExactListing (m : Blocks) (out : List Block) : Prop :=
  PreOrdered m.get (parentIn m) Block.blockId (fun b c => b.position ≤ c.position) out

theorem rebuilt_sorted (m : Blocks) :
    KidsSorted m.get (under (rebuildIndex m)) (fun b c => b.position ≤ c.position) := by
  intro o
  rw [under_rebuildIndex]
  refine (sortByPos_listing m _).2.imp ?_
  intro i j hij b c hb hc
  simpa [positionOf,hb,hc] using hij

theorem levels_of_map (hnamed : Named m) : ∃ N, ∀ n x, At (parentIn m) n x → n ≤ N := by
  obtain ⟨N,hN⟩ := levels_bounded (parentIn_functional m) (m.values.map Block.blockId)
  refine ⟨N,fun n x hx => hN x ?_ n hx⟩
  obtain ⟨b,hb⟩ := node_at (rebuilt_listed hnamed) hx
  exact List.mem_map.mpr ⟨b,mem_values.mpr ⟨x,hb⟩,hnamed x b hb⟩

/-- The recursion ends on every map, with the exact listing, and the index of a store is
always the one that is rebuilt from its blocks. -/
theorem flatten_exact (hnamed : Named m) (events : List ClientEvent) :
    (∃ out N, (∀ fuel, N < fuel →
        flattenBlocks fuel (rebuildIndex m).1 (rebuildIndex m).2 m = some out) ∧
      ExactListing m out) ∧
    Indexed (clientRun events) := by
  obtain ⟨N,hN⟩ := levels_of_map hnamed
  obtain ⟨out,hout,hexact⟩ := walkAll_preOrdered (rebuilt_listed hnamed) (rebuilt_sorted m) hN
  exact ⟨⟨out,N,hout,hexact⟩,run_indexed events⟩

def blockUnder (id : Uuid) (parentId : Option Uuid) : Block :=
  { rootBlock with blockId := id, parentId := parentId }

/-- A root and its child, one under an unknown parent, two under each other and one
under itself. -/
def tangled : Blocks :=
  (((((OrderedMap.empty.set 1 (blockUnder 1 none)).set 2 (blockUnder 2 (some 1))).set 3
    (blockUnder 3 (some 9))).set 4 (blockUnder 4 (some 5))).set 5 (blockUnder 5 (some 4))).set 6
    (blockUnder 6 (some 6))

theorem tangled_listing : (∃ out N, (∀ fuel, N < fuel →
      flattenBlocks fuel (rebuildIndex tangled).1 (rebuildIndex tangled).2 tangled = some out) ∧
    ExactListing tangled out) ∧ Indexed (clientRun [.loadSnapshot 1 [] (toLex (0,0))]) := by
  refine flatten_exact ?_ [.loadSnapshot 1 [] (toLex (0,0))]
  refine named_set (named_set (named_set (named_set (named_set (named_set ?_ rfl) rfl) rfl) rfl)
    rfl) rfl
  exact nofun

example : (flattenBlocks 2 (rebuildIndex tangled).1 (rebuildIndex tangled).2 tangled).map
    (List.map Block.blockId) = some [1,2] := by decide

end BlockDocs.FlatListing
