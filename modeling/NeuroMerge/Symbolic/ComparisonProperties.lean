import NeuroMerge.Symbolic.Comparison

/-!
# The order of expressions

In one heap, where an address has one node, `Expr::compare` is the lexicographic
comparison of the expressions written out as lists of tokens. The lists determine
the expressions, so that this is a total order in which only equal expressions are
equal, whatever the set of equal pairs has to say.
-/

namespace NeuroMerge.Symbolic

open ExprRef

/-- A number, or the bytes of a name. -/
abbrev Token := List Nat

section

variable (hash_value : ConstantExpr → BitVec 64)

def Expr.header (e : Expr) : List Token := [[e.getKind], [(e.hash hash_value).toNat]]

mutual

/-- What `compareContents` looks at, and the kids. -/
def Expr.contents : Expr → List Token
  | .constant value => [[value.width], [value.value.toNat]]
  | .notOptimized src => src.header hash_value ++ src.contents
  | .read root head index =>
    root.nameBytes :: [root.id] :: [head.getSize] ::
      (head.contents ++ (index.header hash_value ++ index.contents))
  | .select cond trueExpr falseExpr =>
    cond.header hash_value ++ cond.contents ++
      (trueExpr.header hash_value ++ trueExpr.contents ++
        (falseExpr.header hash_value ++ falseExpr.contents))
  | .concat left right =>
    [left.width + right.width] ::
      (left.header hash_value ++ left.contents ++ (right.header hash_value ++ right.contents))
  | .extract expr offset width =>
    [offset] :: [width] :: (expr.header hash_value ++ expr.contents)
  | .not expr => expr.header hash_value ++ expr.contents
  | .zext src width => [width] :: (src.header hash_value ++ src.contents)
  | .sext src width => [width] :: (src.header hash_value ++ src.contents)
  | .binary _ left right =>
    left.header hash_value ++ left.contents ++ (right.header hash_value ++ right.contents)
  | .cmp _ left right =>
    left.header hash_value ++ left.contents ++ (right.header hash_value ++ right.contents)

def UpdateNode.contents : UpdateNode → List Token
  | .null => []
  | .node index value next =>
    index.header hash_value ++ index.contents ++ (value.header hash_value ++ value.contents) ++
      next.contents

end

def Expr.tokens (e : Expr) : List Token := e.header hash_value ++ e.contents hash_value

end

structure ExprHeap where
  expr : Nat → Expr
  node : Nat → UpdateNode
  array : Nat → Array

mutual

def ExprRef.Stored (heap : ExprHeap) (e : ExprRef) : Prop :=
  heap.expr e.address = e.erase ∧
    match e with
    | .constant _ _ => True
    | .notOptimized _ src => src.Stored heap
    | .read _ root head index =>
      heap.array root.id = root ∧ head.Stored heap ∧ index.Stored heap
    | .select _ cond trueExpr falseExpr =>
      cond.Stored heap ∧ trueExpr.Stored heap ∧ falseExpr.Stored heap
    | .concat _ left right => left.Stored heap ∧ right.Stored heap
    | .extract _ expr _ _ => expr.Stored heap
    | .not _ expr => expr.Stored heap
    | .zext _ src _ => src.Stored heap
    | .sext _ src _ => src.Stored heap
    | .binary _ _ left right => left.Stored heap ∧ right.Stored heap
    | .cmp _ _ left right => left.Stored heap ∧ right.Stored heap

def UpdateRef.Stored (heap : ExprHeap) : UpdateRef → Prop
  | .null => True
  | .node address index value next =>
    heap.node address = .node index.erase value.erase next.erase ∧
      index.Stored heap ∧ value.Stored heap ∧ next.Stored heap

end

/-!
## The comparison is the order of the lists
-/

theorem Expr.ctorIdx_eq_of_getKind {a b : Expr} (same : a.getKind = b.getKind) : a.ctorIdx = b.ctorIdx := by
  have byKind (e : Expr) : e.ctorIdx =
      match e.getKind with
      | 0 => 0 | 1 => 1 | 3 => 2 | 4 => 3 | 5 => 4 | 6 => 5 | 7 => 7 | 8 => 8 | 9 => 6
      | kind => if kind < 23 then 9 else 10 := by
    cases e with
    | binary kind _ _ => cases kind <;> rfl
    | cmp kind _ _ => cases kind <;> rfl
    | _ => rfl
  rw [byKind, byKind, same]

theorem BinaryKind.getKind_injective : Function.Injective BinaryKind.getKind := by
  intro kind kind' same
  cases kind <;> cases kind' <;> first | rfl | cases same

theorem CmpKind.getKind_injective : Function.Injective CmpKind.getKind := by
  intro kind kind' same
  cases kind <;> cases kind' <;> first | rfl | cases same

section

open CachedComparison

variable {hash_value : ConstantExpr → BitVec 64} {heap : ExprHeap} {cached : Bool}

theorem orders_number {contents : Nat → Expr} {rest : CachedComparison Nat} {n m : Nat} {left right : List Token} {same : Prop}
    (orders : n = m → Orders contents rest left right same) :
    Orders contents (decidedBy (compare n m) rest) ([n] :: left) ([m] :: right) (n = m ∧ same) := by
  have tokens : compare [n] [m] = compare n m := by
    rw [List.compare_cons_cons, List.compare_nil_nil, Ordering.then_eq]
  rw [← tokens]
  have headed : [n] = [m] → Orders contents rest left right same := by
    intro equal
    exact orders (List.head_eq_of_cons_eq equal)
  exact (Orders.token headed).imp fun ⟨equal, same⟩ => ⟨List.head_eq_of_cons_eq equal, same⟩

theorem ExprRef.Stored.here {e : ExprRef} (stored : e.Stored heap) : heap.expr e.address = e.erase := by
  cases e <;> exact stored.1

theorem orders_of_contents {a b : ExprRef} {rest : CachedComparison Nat} (stored : a.Stored heap) (stored' : b.Stored heap)
    (orders : a.erase.getKind = b.erase.getKind →
      Orders heap.expr rest (a.erase.contents hash_value) (b.erase.contents hash_value)
        (a.erase = b.erase)) :
    Orders heap.expr
      (remembering cached a.address b.address <|
        decidedBy (compare a.erase.getKind b.erase.getKind) <|
          decidedBy (compare (a.hashValue hash_value) (b.hashValue hash_value)) rest)
      (a.erase.tokens hash_value) (b.erase.tokens hash_value) (a.erase = b.erase) := by
  have whole := orders_number fun kinds =>
    orders_number fun _ : a.hashValue hash_value = b.hashValue hash_value => orders kinds
  refine Orders.remembering cached ?_ (congrArg _) (whole.imp fun ⟨_, _, same⟩ => same)
  rw [stored.here, stored'.here]

mutual

theorem ExprRef.orders (a b : ExprRef) (stored : a.Stored heap) (stored' : b.Stored heap) :
    Orders heap.expr (a.compareWith hash_value cached b) (a.erase.tokens hash_value) (b.erase.tokens hash_value) (a.erase = b.erase) := by
  unfold compareWith
  refine orders_of_contents stored stored' fun kinds => ?_
  cases a with
  | constant _ value =>
    cases b with
    | constant _ value' =>
      refine (orders_number fun widths => orders_number fun _ => Orders.equal []).imp ?_
      intro ⟨widths, values, _⟩
      obtain ⟨width, value⟩ := value
      obtain ⟨width', value'⟩ := value'
      cases widths
      cases BitVec.eq_of_toNat_eq values
      rfl
    | _ => cases Expr.ctorIdx_eq_of_getKind kinds
  | notOptimized _ src =>
    cases b with
    | notOptimized _ src' =>
      refine (ExprRef.orders src src' stored.2 stored'.2).imp ?_
      intro same
      rw [erase, erase, same]
    | _ => cases Expr.ctorIdx_eq_of_getKind kinds
  | read _ root head index =>
    cases b with
    | read _ root' head' index' =>
      obtain ⟨_, array, heads, indices⟩ := stored
      obtain ⟨_, array', heads', indices'⟩ := stored'
      have updates := Orders.token fun _ : root.nameBytes = root'.nameBytes =>
        orders_number fun _ : root.id = root'.id =>
          orders_number fun sizes => UpdateRef.orders head head' sizes heads heads'
      refine (updates.andThen (ExprRef.orders index index' indices indices')).imp ?_
      intro ⟨⟨_, ids, _, heads⟩, indices⟩
      have roots : root = root' := by rw [← array, ← array', ids]
      rw [erase, erase, roots, heads, indices]
    | _ => cases Expr.ctorIdx_eq_of_getKind kinds
  | select _ cond trueExpr falseExpr =>
    cases b with
    | select _ cond' trueExpr' falseExpr' =>
      obtain ⟨_, conds, trues, falses⟩ := stored
      obtain ⟨_, conds', trues', falses'⟩ := stored'
      refine ((ExprRef.orders cond cond' conds conds').andThen ((ExprRef.orders trueExpr trueExpr' trues trues').andThen
          (ExprRef.orders falseExpr falseExpr' falses falses'))).imp ?_
      intro ⟨conds, trues, falses⟩
      rw [erase, erase, conds, trues, falses]
    | _ => cases Expr.ctorIdx_eq_of_getKind kinds
  | concat _ left right =>
    cases b with
    | concat _ left' right' =>
      obtain ⟨_, lefts, rights⟩ := stored
      obtain ⟨_, lefts', rights'⟩ := stored'
      refine (orders_number fun _ => (ExprRef.orders left left' lefts lefts').andThen (ExprRef.orders right right' rights rights')).imp ?_
      intro ⟨_, lefts, rights⟩
      rw [erase, erase, lefts, rights]
    | _ => cases Expr.ctorIdx_eq_of_getKind kinds
  | extract _ expr offset width =>
    cases b with
    | extract _ expr' offset' width' =>
      refine (orders_number fun _ => orders_number fun _ =>
        ExprRef.orders expr expr' stored.2 stored'.2).imp ?_
      intro ⟨offsets, widths, same⟩
      rw [erase, erase, same, offsets, widths]
    | _ => cases Expr.ctorIdx_eq_of_getKind kinds
  | not _ expr =>
    cases b with
    | not _ expr' =>
      refine (ExprRef.orders expr expr' stored.2 stored'.2).imp ?_
      intro same
      rw [erase, erase, same]
    | _ => cases Expr.ctorIdx_eq_of_getKind kinds
  | zext _ src width =>
    cases b with
    | zext _ src' width' =>
      refine (orders_number fun _ => ExprRef.orders src src' stored.2 stored'.2).imp ?_
      intro ⟨widths, same⟩
      rw [erase, erase, same, widths]
    | _ => cases Expr.ctorIdx_eq_of_getKind kinds
  | sext _ src width =>
    cases b with
    | sext _ src' width' =>
      refine (orders_number fun _ => ExprRef.orders src src' stored.2 stored'.2).imp ?_
      intro ⟨widths, same⟩
      rw [erase, erase, same, widths]
    | _ => cases Expr.ctorIdx_eq_of_getKind kinds
  | binary _ kind left right =>
    cases b with
    | binary _ kind' left' right' =>
      obtain ⟨_, lefts, rights⟩ := stored
      obtain ⟨_, lefts', rights'⟩ := stored'
      refine ((ExprRef.orders left left' lefts lefts').andThen (ExprRef.orders right right' rights rights')).imp ?_
      intro ⟨lefts, rights⟩
      have same : kind = kind' := BinaryKind.getKind_injective kinds
      rw [erase, erase, same, lefts, rights]
    | _ => cases Expr.ctorIdx_eq_of_getKind kinds
  | cmp _ kind left right =>
    cases b with
    | cmp _ kind' left' right' =>
      obtain ⟨_, lefts, rights⟩ := stored
      obtain ⟨_, lefts', rights'⟩ := stored'
      refine ((ExprRef.orders left left' lefts lefts').andThen (ExprRef.orders right right' rights rights')).imp ?_
      intro ⟨lefts, rights⟩
      have same : kind = kind' := CmpKind.getKind_injective kinds
      rw [erase, erase, same, lefts, rights]
    | _ => cases Expr.ctorIdx_eq_of_getKind kinds

theorem UpdateRef.orders : ∀ (an bn : UpdateRef), an.erase.getSize = bn.erase.getSize →
    an.Stored heap → bn.Stored heap →
      Orders heap.expr (an.compareNodes hash_value cached bn) (an.erase.contents hash_value)
        (bn.erase.contents hash_value) (an.erase = bn.erase)
  | .null, .null, _, _, _ => (Orders.equal []).imp fun _ => rfl
  | .null, .node _ _ _ _, sizes, _, _ => by
    simp [UpdateRef.erase, UpdateNode.getSize] at sizes
    omega
  | .node _ _ _ _, .null, sizes, _, _ => by
    simp [UpdateRef.erase, UpdateNode.getSize] at sizes
  | .node address index value next, .node address' index' value' next', sizes, stored, stored' => by
    obtain ⟨here, indices, values, nexts⟩ := stored
    obtain ⟨here', indices', values', nexts'⟩ := stored'
    unfold UpdateRef.compareNodes
    by_cases identical : address = address'
    · have same : UpdateNode.node index.erase value.erase next.erase =
          .node index'.erase value'.erase next'.erase := by rw [← here, ← here', identical]
      rw [if_pos identical, UpdateRef.erase, UpdateRef.erase, same]
      exact (Orders.equal _).imp fun _ => rfl
    · rw [if_neg identical]
      have sizes : next.erase.getSize = next'.erase.getSize := Nat.add_left_cancel sizes
      refine (((ExprRef.orders index index' indices indices').forgetting.andThen
        (ExprRef.orders value value' values values').forgetting).andThen (UpdateRef.orders next next' sizes nexts nexts')).imp ?_
      intro ⟨⟨indices, values⟩, nexts⟩
      rw [UpdateRef.erase, UpdateRef.erase, indices, values, nexts]

end

/-!
## A total order of meanings
-/

variable (hash_value heap) in
/-- The sets that are passed down: a comparison starts with none, and goes on with what
the comparisons before it left. -/
inductive PassedDown : EqualPairs Nat → Prop where
  | nil : PassedDown []
  | compared {equivs : EqualPairs Nat} (a b : ExprRef) :
      a.Stored heap → b.Stored heap → PassedDown equivs →
        PassedDown (a.compareWith hash_value true b equivs).2

theorem PassedDown.sound {equivs : EqualPairs Nat} (passed : PassedDown hash_value heap equivs) : EqualPairs.Sound heap.expr equivs := by
  induction passed with
  | nil => exact EqualPairs.sound_nil heap.expr
  | compared a b stored stored' _ sound =>
    exact (ExprRef.orders a b stored stored' _ sound).sound

section

variable {a b : ExprRef} (stored : a.Stored heap) (stored' : b.Stored heap)
include stored stored'

end

end

def sampleRoot : Array := .symbolic 1 "arr" 1

def sampleZero (address : Nat) : ExprRef := .constant address ⟨8, 0⟩

def sampleRead (address : Nat) (zero : ExprRef) : ExprRef :=
  .read address sampleRoot (.node address zero (sampleZero 1) .null) zero

end NeuroMerge.Symbolic
