import Stencil.Proofs.Branch.Boundaries
import Stencil.Proofs.Script.Numbering

/-!
# The order of the numbers

A walk with a visitor that always goes on leaves the nodes of a program in the order of their
numbers, from zero to the number of the program, and lowering has given out no others.
-/

namespace Stencil.Script

/-- A walk with a visitor that always goes on comes to its end and leaves the nodes in postorder. -/
theorem Node.left_walk {σ : Type} {v : Visitor Node σ} (hv : v.AlwaysContinues) (tree : Node)
    (s : σ) :
  ((tree.outline visitorKeys).walk v.recording ([], s)).1 = true
    ∧ ((tree.outline visitorKeys).walk v.recording ([], s)).2.1.filterMap Call.left?
      = tree.postorder
  := by
  have htells : Course.Tells Call.left? (anatomy.course visitorKeys v tree none s)
      (anatomy.outline visitorKeys tree).postorder :=
    Anatomy.tells_left hv tree none s
  have hwalk := (Anatomy.walk_eq_course anatomy visitorKeys v tree s).2.1
  rw [← outline_eq] at htells hwalk
  rw [hwalk]
  exact ⟨htells.isCompleted, htells.picked⟩

namespace Program

variable {σ : Type} {source : Text} {p : Program}

/-- What lies below a node of a program has a smaller number. -/
theorem id_lt (h : ofText source = .ok p) {n m : Node} (hn : n ∈ p.tree.preorder)
    (hm : m ∈ n.parts.flatMap Node.postorder) :
  m.id < n.id
  := by
  have hascends : p.tree.postorder.Pairwise fun m n => m.id < n.id := by
    obtain ⟨parsed, -, htree, -⟩ := parsed_of_ofText h
    obtain ⟨-, s, -, -, hids⟩ := run_of_lowered htree
    rw [← List.pairwise_map, hids]
    exact List.pairwise_lt_range
  have hpairwise := Node.pairwise_postorder hascends hn
  rw [Node.postorder_eq, List.pairwise_append] at hpairwise
  exact hpairwise.2.2 m hm n (List.mem_singleton_self n)

/-- The nodes of a program, read in the order in which a walk leaves them, have the numbers zero,
one, two and so on, and lowering has given out no others.  So no two nodes have the same number, a
part has a smaller number than what it is a part of, and the program has the largest. -/
theorem ids_left (h : ofText source = .ok p)
    {v : Visitor Node σ} (hv : v.AlwaysContinues) (s : σ) :
  let walk := (p.tree.outline visitorKeys).walk v.recording ([], s)
  let left := walk.2.1.filterMap Call.left?
  walk.1 = true
    ∧ left.map Node.id = List.range left.length
    ∧ left.Perm p.tree.preorder
    ∧ (∃ parsed l, Parsed.ofText source = .ok parsed
      ∧ (Lower.program parsed.tree).run {} = .ok (p.tree, l) ∧ l.nextId.toNat = left.length)
    ∧ (p.tree.preorder.map Node.id).Nodup
    ∧ (∀ n ∈ p.tree.preorder, ∀ m ∈ n.parts, m.id < n.id)
    ∧ ∀ n ∈ p.tree.preorder, n.id ≤ p.tree.id
  := by
  obtain ⟨hcompleted, hleft⟩ := p.tree.left_walk hv s
  obtain ⟨parsed, hparsed, htree, -⟩ := parsed_of_ofText h
  obtain ⟨-, l, hrun, hnext, hids⟩ := run_of_lowered htree
  dsimp only
  rw [hleft]
  refine ⟨hcompleted, hids, p.tree.postorder_perm_preorder, ⟨parsed, l, hparsed, hrun, hnext⟩,
    nodup_ids h, ?_, ?_⟩
  · intro n hn m hm
    apply id_lt h hn
    rw [List.mem_flatMap]
    use m, hm
    exact m.postorder_perm_preorder.mem_iff.mpr m.self_mem_preorder
  · intro n hn
    have hmem := p.tree.postorder_perm_preorder.mem_iff.mpr hn
    rw [Node.postorder_eq, List.mem_append, List.mem_singleton] at hmem
    rcases hmem with hmem | rfl
    · exact Nat.le_of_lt (id_lt h p.tree.self_mem_preorder hmem)
    · apply Nat.le_refl

/-- A loop whose body stands before its test. -/
def loopSource : Text := Text.ofString "do x++; while (!y)"

theorem ids_left_loopSource :
  ∃ p, ofText loopSource = .ok p ∧ Node.counter.AlwaysContinues
    ∧ (((p.tree.outline visitorKeys).walk Node.counter.recording ([], 0)).2.1.filterMap
        Call.left?).map Node.id = [0, 1, 2, 3, 4, 5, 6]
  := by
  have hread : (ofText loopSource).toOption.isSome = true := by decide +kernel
  have hcount : (Parsed.ofText loopSource).toOption.map
      (fun parsed => ((Lower.program parsed.tree).run {}).toOption.map (·.2.nextId.toNat))
        = some (some 7) := by decide +kernel
  obtain ⟨p, hp⟩ := Option.isSome_iff_exists.mp hread
  have hp := Analysis.eq_ok_of_toOption hp
  have hcounter : Node.counter.AlwaysContinues := fun _ _ _ => rfl
  obtain ⟨-, hids, -, ⟨parsed, l, hparsed, hrun, hnext⟩, -⟩ := ids_left hp hcounter 0
  rw [hparsed] at hcount
  have hlength : l.nextId.toNat = 7 := by
    have hcount := Option.some.inj hcount
    dsimp only at hcount
    rw [hrun] at hcount
    exact Option.some.inj hcount
  refine ⟨p, hp, hcounter, ?_⟩
  rw [hids, ← hnext, hlength]
  rfl

end Program

end Stencil.Script
