import OperandCodec.Expr.Recursion
import OperandCodec.Proofs.Parser.Language
/-!
# How large a parsed tree can be

The parser counts operators and open levels, and neither count is a measure
of the tree: a chain grows to the left without opening a level, a level is
closed while the parsing goes on, and a sign may leave no node. What bounds
the tree is that every negation on a way down stands for a sign of its own
that encloses what lies below (`countP_isNegation_le_nesting`), and every
other inner node for one operator. A way down is made of these two kinds of
node and a leaf, so its length is bounded by the two limits together.
-/

namespace OperandCodec

namespace Expr

variable {e : Expr} {path : List Expr}

/-- A way down has negations, operations and one leaf. -/
theorem length_of_mem_paths (h : path ∈ e.paths) :
    path.length = path.countP isNegation + path.countP isOperation + 1 := by
  induction e generalizing path with
  | literal | var =>
    obtain rfl := List.mem_singleton.1 h
    rfl
  | negate e ih =>
    obtain ⟨rest, hrest, rfl⟩ := List.mem_map.1 h
    have hlength := ih hrest
    have hnot : ¬ isOperation (negate e) := Bool.false_ne_true
    rw [List.length_cons, List.countP_cons_of_pos rfl, List.countP_cons_of_neg hnot]
    omega
  | binary op l r ihl ihr =>
    obtain ⟨rest, hrest, rfl⟩ := List.mem_map.1 h
    have hlength := (List.mem_append.1 hrest).elim ihl ihr
    have hnot : ¬ isNegation (binary op l r) := Bool.false_ne_true
    rw [List.length_cons, List.countP_cons_of_neg hnot, List.countP_cons_of_pos rfl]
    omega

/-- The operations on a way down are some of the operators of the tree. -/
theorem countP_isOperation_le (h : path ∈ e.paths) : path.countP isOperation ≤ e.operators := by
  induction e generalizing path with
  | literal | var =>
    obtain rfl := List.mem_singleton.1 h
    exact Nat.zero_le _
  | negate e ih =>
    obtain ⟨rest, hrest, rfl⟩ := List.mem_map.1 h
    have hnot : ¬ isOperation (negate e) := Bool.false_ne_true
    rw [List.countP_cons_of_neg hnot]
    exact ih hrest
  | binary op l r ihl ihr =>
    obtain ⟨rest, hrest, rfl⟩ := List.mem_map.1 h
    rw [List.countP_cons_of_pos rfl, operators]
    rcases List.mem_append.1 hrest with hrest | hrest
    · have := ihl hrest
      omega
    · have := ihr hrest
      omega

/-- Some way down is as long as the tree is high. -/
theorem exists_path_of_height (e : Expr) : ∃ path ∈ e.paths, path.length = e.height + 1 := by
  induction e with
  | literal n => exact ⟨_, List.mem_singleton_self _, rfl⟩
  | var => exact ⟨_, List.mem_singleton_self _, rfl⟩
  | negate e ih =>
    obtain ⟨path, hpath, hlength⟩ := ih
    exact ⟨_, List.mem_map_of_mem hpath, congrArg Nat.succ hlength⟩
  | binary op l r ihl ihr =>
    obtain ⟨left, hleft, hl⟩ := ihl
    obtain ⟨right, hright, hr⟩ := ihr
    rw [height]
    rcases Nat.le_total l.height r.height with hle | hle
    · refine ⟨_, List.mem_map_of_mem (List.mem_append_right _ hright), ?_⟩
      rw [Nat.max_eq_right hle, List.length_cons, hr]
    · refine ⟨_, List.mem_map_of_mem (List.mem_append_left _ hleft), ?_⟩
      rw [Nat.max_eq_left hle, List.length_cons, hl]

/-- A minus sign puts one negation at most on a way down. -/
theorem countP_isNegation_minus {k : Nat} (h : ∀ path ∈ e.paths, path.countP isNegation ≤ k) :
    ∀ path ∈ e.minus.paths, path.countP isNegation ≤ k + 1 := by
  have hnegate : ∀ path ∈ (negate e).paths, path.countP isNegation ≤ k + 1 := by
    intro path hpath
    obtain ⟨rest, hrest, rfl⟩ := List.mem_map.1 hpath
    rw [List.countP_cons_of_pos rfl]
    exact Nat.succ_le_succ (h rest hrest)
  cases e with
  | literal n =>
    intro path hpath
    obtain rfl := List.mem_singleton.1 hpath
    exact Nat.zero_le _
  | var | negate | binary => exact hnegate

end Expr

open OperandCodec.Expr

/-- **The negations on a way down are enclosed in as many signs.** The induction is on the
derivation; the signs of two operands do not add up, since no way down goes through both. -/
theorem Derivation.countP_isNegation_le_nesting {p : Phrase} (d : Derivation p) :
    ∀ path ∈ d.tree.paths, path.countP isNegation ≤ d.nesting := by
  induction d with
  | literal | var =>
    intro path hpath
    obtain rfl := List.mem_singleton.1 hpath
    exact Nat.zero_le _
  | minus d ih => exact countP_isNegation_minus ih
  | plus d ih | parens d ih => exact fun path hpath => Nat.le_succ_of_le (ih path hpath)
  | single d ih | term d ih => exact ih
  | times op _ l r ihl ihr | add op _ l r ihl ihr =>
    intro path hpath
    obtain ⟨rest, hrest, rfl⟩ := List.mem_map.1 hpath
    rcases List.mem_append.1 hrest with hrest | hrest
    · exact (ihl rest hrest).trans (Nat.le_max_left _ _)
    · exact (ihr rest hrest).trans (Nat.le_max_right _ _)

namespace Expr

/-- **The two limits bound the tree.** A tree that was parsed has 256 operators at most, no way down
has more than 64 negations, and none has more than 320 edges. So evaluating the tree, printing it
and whatever else recurses over it nests 320 calls at most. -/
theorem limits_bound_tree {source : String} {v : Variable} {e : Expr}
    (h : ofSource source v = .ok e) :
    e.operators ≤ 256 ∧ (∀ path ∈ e.paths, path.countP isNegation ≤ 64) ∧ e.height ≤ 320 ∧
      (∀ x, (Recursion.evaluation x).runWithin 320 e = some (e.eval x)) ∧
      (∀ name, (Recursion.printing name).runWithin 320 e = some (e.textWith name)) ∧
      ∀ {α : Type} (f : Recursion α), f.runWithin 320 e = some (f.run e) := by
  obtain ⟨d, -, rfl, hnesting, hoperators, -⟩ := derivation_of_ofSource h
  have hops : d.tree.operators ≤ 256 := d.operators_tree.le.trans hoperators
  have hnegations : ∀ path ∈ d.tree.paths, path.countP isNegation ≤ 64 := fun path hpath =>
    (d.countP_isNegation_le_nesting path hpath).trans hnesting
  have hheight : d.tree.height ≤ 320 := by
    obtain ⟨path, hpath, hlength⟩ := d.tree.exists_path_of_height
    have hnodes := length_of_mem_paths hpath
    have hsigns := hnegations path hpath
    have hjoins := countP_isOperation_le hpath
    omega
  refine ⟨hops, hnegations, hheight, fun x => ?_, fun name => ?_, fun f => ?_⟩
  · exact Recursion.runWithin_eq_some_iff.2 ⟨hheight, Recursion.run_evaluation x _⟩
  · exact Recursion.runWithin_eq_some_iff.2 ⟨hheight, Recursion.run_printing name _⟩
  · exact Recursion.runWithin_eq_some_iff.2 ⟨hheight, rfl⟩

/-- All signs that the limit allows before the variable, at the left end of a chain: the way down
through them has as many negations as there can be. -/
theorem limits_bound_tree_of_signs :
    let source := String.ofList (List.replicate 64 '-' ++ "arg % 9 - (-arg + 1) * 2".toList)
    let signs := Nat.repeat negate 64 var
    let e := binary .sub (binary .rem signs (literal 9))
      (binary .mul (binary .add (negate var) (literal 1)) (literal 2))
    ofSource source .arg = .ok e ∧ e.operators = 4 ∧ e.height = 66 ∧
      (∃ path ∈ e.paths, path.countP isNegation = 64) ∧
      (Recursion.evaluation 5).runWithin 65 e = none ∧
      (Recursion.evaluation 5).runWithin 320 e = some (.ok 13) := by
  have h : ofSource (String.ofList
      (List.replicate 64 '-' ++ "arg % 9 - (-arg + 1) * 2".toList)) .arg =
        .ok (binary .sub (binary .rem (Nat.repeat negate 64 var) (literal 9))
          (binary .mul (binary .add (negate var) (literal 1)) (literal 2))) := by
    decide +kernel
  obtain ⟨-, -, -, hvalue, -⟩ := limits_bound_tree h
  refine ⟨h, by decide +kernel, by decide +kernel, by decide +kernel, by decide +kernel, ?_⟩
  rw [hvalue]
  decide +kernel

end Expr
end OperandCodec
