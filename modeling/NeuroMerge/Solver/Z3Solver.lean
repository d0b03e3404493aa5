import Mathlib.Data.List.Dedup
import NeuroMerge.Solver.ArrayNames
import NeuroMerge.Symbolic.Reads

/-!
# Constant arrays in Z3 queries

`Z3SolverImpl::internalRunSolver` asserts the elements of the constant arrays
that `ConstantArrayFinder` finds in a query, as far as `Z3Builder` has come to them
while it constructed this query or an earlier one. Of the terms only the arrays in
them matter here, in the order in which the builder comes to them; the arguments of
one call are taken from the left, an order that C++ leaves to the compiler.
-/

namespace NeuroMerge.Z3

open List Symbolic Solver

/-- `(= (select array index) value)` -/
structure ElementEquality where
  array : ArrayVariable
  index : ConstantExpr
  value : ConstantExpr
  deriving DecidableEq

/-- What is looked up in `_update_node_hash`: the address of a node, with its hash value. -/
abbrev NodeKey := Nat × Nat

/-- The keys of the nodes of a read. Equal reads of one query are constructed once, so the
addresses depend on the read. -/
abbrev NodeKeys := ReadExpr → UpdateNode → NodeKey

structure Z3Builder where
  constructed : List Expr
  arrHash : ArrayHash
  updateNodeHash : List NodeKey
  constantArrayAssertions : List (Array × List ElementEquality)

def Z3Builder.new : Z3Builder := ⟨[], [], [], []⟩

def elementEqualities (array_expr : ArrayVariable) (root : Array) : List ElementEquality :=
  (List.range root.size).map fun i =>
    ⟨array_expr, .alloc i root.domain, ⟨root.range, root.constantValues[i]?.getD 0⟩⟩

def getInitialArray (root : Array) (b : Z3Builder) : Z3Builder :=
  match lookupArrayExpr b.arrHash root with
  | some _ => b
  | none =>
    let (array_expr, arrHash) := Solver.getInitialArray b.arrHash root
    let assertions :=
      if root.isConstantArray ∧ (b.constantArrayAssertions.lookup root).isNone then
        (root, elementEqualities array_expr root) :: b.constantArrayAssertions
      else b.constantArrayAssertions
    { b with arrHash, constantArrayAssertions := assertions }

def Z3Builder.once (e : Expr) (constructActual : Z3Builder → Z3Builder) (b : Z3Builder) :
    Z3Builder :=
  if e ∈ b.constructed then b
  else
    let b := constructActual b
    { b with constructed := e :: b.constructed }

mutual

def construct (keys : NodeKeys) : Expr → Z3Builder → Z3Builder
  | .constant _ => id
  | .notOptimized src => .once (.notOptimized src) (construct keys src)
  | .read root head index =>
    .once (.read root head index) fun b =>
      construct keys index (getArrayForUpdate keys ⟨root, head, index⟩ head b)
  | .select cond trueExpr falseExpr =>
    .once (.select cond trueExpr falseExpr) fun b =>
      construct keys falseExpr (construct keys trueExpr (construct keys cond b))
  | .concat left right =>
    .once (.concat left right) fun b => construct keys left (construct keys right b)
  | .extract expr offset width => .once (.extract expr offset width) (construct keys expr)
  | .not expr => .once (.not expr) (construct keys expr)
  | .zext src width => .once (.zext src width) (construct keys src)
  | .sext src width => .once (.sext src width) (construct keys src)
  | .binary kind left right =>
    .once (.binary kind left right) fun b =>
      -- `Mul` alone has its right operand constructed first
      if kind = .mul then construct keys left (construct keys right b)
      else construct keys right (construct keys left b)
  | .cmp kind left right =>
    .once (.cmp kind left right) fun b => construct keys right (construct keys left b)

def getArrayForUpdate (keys : NodeKeys) (re : ReadExpr) : UpdateNode → Z3Builder → Z3Builder
  | .null, b => getInitialArray re.root b
  | .node index value next, b =>
    let key := keys re (.node index value next)
    if key ∈ b.updateNodeHash then b
    else
      let b := construct keys value (construct keys index (getArrayForUpdate keys re next b))
      { b with updateNodeHash := key :: b.updateNodeHash }

end

inductive Lbool where
  | isTrue
  | isFalse
  | undef
  deriving DecidableEq

/-- A query with the arrays whose values are asked for, where the nodes of its update lists
lie, and what `Z3_solver_check` answers. -/
structure Query where
  addresses : ReadExpr → UpdateNode → Nat
  constraints : List Expr
  expr : Expr
  objects : Option (List Array)
  satisfiable : Lbool

/-- What `ConstantArrayFinder` has visited: all constraints and the query expression. -/
def Query.reads (q : Query) : List ReadExpr := (q.constraints ++ [q.expr]).flatMap Expr.reads

def Query.constantArrays (q : Query) : List Array :=
  ((q.reads.map (·.root)).filter (·.isConstantArray)).dedup

inductive Fault where
  | notHandled
  deriving DecidableEq, Repr

section Runs

variable (hash : UpdateNode → Nat)

def Query.keys (q : Query) : NodeKeys := fun re un => (q.addresses re un, hash un)

def Query.construct (q : Query) (b : Z3Builder) : Z3Builder :=
  Z3.construct (q.keys hash) q.expr
    (q.constraints.foldl (fun b constraint => Z3.construct (q.keys hash) constraint b) b)

end Runs

/-! ## What has been declared -/

def Declared (b : Z3Builder) (reads : List ReadExpr) : Prop :=
  ∀ re ∈ reads, re.root ∈ b.arrHash.arrays

/-- The builder only remembers what it has declared all arrays of; `place` says which node
of which array each key stands for. -/
structure Sound (place : NodeKey → Array × UpdateNode) (b : Z3Builder) : Prop where
  named : ∀ (k : Nat) (root : Array) (array_expr : ArrayVariable),
    b.arrHash[k]? = some (root, array_expr) →
    array_expr = ⟨declaredName root k, root.domain, root.range⟩
  distinct : b.arrHash.arrays.Nodup
  assertions : ∀ root, b.constantArrayAssertions.lookup root =
    if root.isConstantArray then
      (lookupArrayExpr b.arrHash root).map fun array_expr => elementEqualities array_expr root
    else none
  constructed : ∀ e ∈ b.constructed, Declared b e.reads
  updates : ∀ key ∈ b.updateNodeHash,
    (place key).1 ∈ b.arrHash.arrays ∧ Declared b (place key).2.reads

def NodesPlaced (place : NodeKey → Array × UpdateNode) (keys : NodeKeys) (re : ReadExpr) :
    UpdateNode → Prop
  | .null => True
  | .node index value next =>
    place (keys re (.node index value next)) = (re.root, .node index value next) ∧
      NodesPlaced place keys re next

def Placed (place : NodeKey → Array × UpdateNode) (keys : NodeKeys) (reads : List ReadExpr) :
    Prop :=
  ∀ re ∈ reads, NodesPlaced place keys re re.head

section Construction

variable {place : NodeKey → Array × UpdateNode} {keys : NodeKeys} {b b' : Z3Builder}
  {reads more : List ReadExpr} {root : Array} {f g : Z3Builder → Z3Builder}

theorem arrays_mono (grows : b.arrHash <+: b'.arrHash) (known : root ∈ b.arrHash.arrays) :
    root ∈ b'.arrHash.arrays := (grows.map _).subset known

theorem Declared.mono (declared : Declared b reads) (grows : b.arrHash <+: b'.arrHash) :
    Declared b' reads := fun re member => arrays_mono grows (declared re member)

/-- The builder stays sound, keeps its variables and gets those of the reads. -/
def Declares (place : NodeKey → Array × UpdateNode) (reads : List ReadExpr)
    (f : Z3Builder → Z3Builder) : Prop :=
  ∀ b, Sound place b → Sound place (f b) ∧ b.arrHash <+: (f b).arrHash ∧ Declared (f b) reads

theorem Declares.nothing : Declares place [] id :=
  fun _ sound => ⟨sound, prefix_rfl, nofun⟩

theorem Declares.andThen (first : Declares place reads f) (second : Declares place more g) :
    Declares place (reads ++ more) fun b => g (f b) := by
  intro b sound
  obtain ⟨between, grows, declared⟩ := first b sound
  obtain ⟨final, growsMore, declaredMore⟩ := second (f b) between
  exact ⟨final, grows.trans growsMore, forall_mem_append.mpr ⟨declared.mono growsMore, declaredMore⟩⟩

theorem Declares.mono (declares : Declares place reads f) (fewer : more ⊆ reads) : Declares place more f := by
  intro b sound
  obtain ⟨final, grows, declared⟩ := declares b sound
  exact ⟨final, grows, fun re member => declared re (fewer member)⟩

theorem Declares.once {e : Expr} (declares : Declares place e.reads f) : Declares place e.reads (Z3Builder.once e f) := by
  intro b sound
  unfold Z3Builder.once
  split
  · rename_i hit
    exact ⟨sound, prefix_rfl, sound.constructed e hit⟩
  · obtain ⟨final, grows, declared⟩ := declares b sound
    refine ⟨⟨final.named, final.distinct, final.assertions, ?_, final.updates⟩, grows, declared⟩
    exact forall_mem_cons.mpr ⟨declared, final.constructed⟩

theorem lookupArrayExpr_mono {array_expr : ArrayVariable} (grows : b.arrHash <+: b'.arrHash)
    (found : lookupArrayExpr b.arrHash root = some array_expr) : lookupArrayExpr b'.arrHash root = some array_expr := by
  obtain ⟨added, same⟩ := grows
  unfold lookupArrayExpr at found ⊢
  rw [Option.map_eq_some_iff] at found
  obtain ⟨entry, first, value⟩ := found
  rw [← same, find?_append, first]
  exact congrArg some value

theorem getInitialArray_declares (re : ReadExpr) : Declares place [re] (getInitialArray re.root) := by
  intro b sound
  unfold getInitialArray
  split
  · rename_i found
    have known : re.root ∈ b.arrHash.arrays := by
      by_contra fresh
      rw [lookupArrayExpr_eq_none.mpr fresh] at found
      cases found
    exact ⟨sound, prefix_rfl, forall_mem_singleton.mpr known⟩
  · rename_i missing
    have fresh := lookupArrayExpr_eq_none.mp missing
    rw [getInitialArray_fresh fresh]
    generalize own : (⟨declaredName re.root b.arrHash.length, re.root.domain, re.root.range⟩ : ArrayVariable) = array_expr
    have grows : b.arrHash <+: b.arrHash ++ [(re.root, array_expr)] := prefix_append _ _
    have arrays : ArrayHash.arrays (b.arrHash ++ [(re.root, array_expr)]) = b.arrHash.arrays ++ [re.root] := map_append
    refine ⟨⟨?_, ?_, ?_, ?_, ?_⟩, grows, ?_⟩
    · intro k root other found
      rw [getElem?_append] at found
      split at found
      · exact sound.named k root other found
      · rename_i last
        obtain ⟨bound, same⟩ := List.getElem?_eq_some_iff.mp found
        rw [length_singleton] at bound
        have place : k = b.arrHash.length := by omega
        rw [getElem_singleton] at same
        cases same
        rw [place, own]
    · rw [arrays]
      exact sound.distinct.append (nodup_singleton _) (by simpa using fresh)
    · intro root
      have before := sound.assertions root
      dsimp only
      by_cases same : root = re.root
      · subst same
        have found : lookupArrayExpr (b.arrHash ++ [(re.root, array_expr)]) re.root =
            some array_expr := by
          unfold lookupArrayExpr at missing ⊢
          rw [Option.map_eq_none_iff] at missing
          simp [find?_append, missing]
        have none : List.lookup re.root b.constantArrayAssertions = none := by
          rw [before, missing, Option.map_none, ite_self]
        rw [found, none]
        by_cases constant : re.root.isConstantArray <;> simp [constant, none]
      · have kept : lookupArrayExpr (b.arrHash ++ [(re.root, array_expr)]) root = lookupArrayExpr b.arrHash root := by
          unfold lookupArrayExpr
          simp [find?_append, Ne.symm same]
        rw [kept, ← before]
        split
        · rw [List.lookup_cons, beq_false_of_ne same]
        · rfl
    · exact fun e member => (sound.constructed e member).mono grows
    · exact fun key member => ⟨arrays_mono grows (sound.updates key member).1, (sound.updates key member).2.mono grows⟩
    · have last : re.root ∈ ArrayHash.arrays (b.arrHash ++ [(re.root, array_expr)]) := by
        rw [arrays]
        exact mem_append_right _ (mem_singleton_self _)
      exact forall_mem_singleton.mpr last

mutual

theorem construct_declares : ∀ {e : Expr}, Placed place keys e.reads →
    Declares place e.reads (construct keys e)
  | .constant _, _ => .nothing
  | .notOptimized _, placed => .once (construct_declares placed)
  | .extract _ _ _, placed => .once (construct_declares placed)
  | .not _, placed => .once (construct_declares placed)
  | .zext _ _, placed => .once (construct_declares placed)
  | .sext _ _, placed => .once (construct_declares placed)
  | .read root head index, placed => by
    obtain ⟨here, below⟩ := forall_mem_cons.mp placed
    obtain ⟨inIndex, inHead⟩ := forall_mem_append.mp below
    have both := (getArrayForUpdate_declares here inHead).andThen (construct_declares inIndex)
    apply Declares.once (both.mono _)
    intro re member
    simp only [Expr.reads, mem_cons, mem_append] at member ⊢
    tauto
  | .select cond trueExpr falseExpr, placed => by
    obtain ⟨inCond, below⟩ := forall_mem_append.mp placed
    obtain ⟨inTrue, inFalse⟩ := forall_mem_append.mp below
    have all := ((construct_declares inCond).andThen (construct_declares inTrue)).andThen (construct_declares inFalse)
    apply Declares.once (all.mono _)
    rw [append_assoc]
    exact .refl _
  | .concat left right, placed => by
    obtain ⟨inLeft, inRight⟩ := forall_mem_append.mp placed
    apply Declares.once (((construct_declares inRight).andThen (construct_declares inLeft)).mono _)
    intro re member
    exact List.mem_append.mpr (List.mem_append.mp member).symm
  | .binary kind left right, placed => by
    obtain ⟨inLeft, inRight⟩ := forall_mem_append.mp placed
    apply Declares.once
    by_cases product : kind = .mul
    · simp only [if_pos product]
      apply ((construct_declares inRight).andThen (construct_declares inLeft)).mono
      intro re member
      exact List.mem_append.mpr (List.mem_append.mp member).symm
    · simp only [if_neg product]
      exact (construct_declares inLeft).andThen (construct_declares inRight)
  | .cmp _ left right, placed => by
    obtain ⟨inLeft, inRight⟩ := forall_mem_append.mp placed
    exact .once ((construct_declares inLeft).andThen (construct_declares inRight))

theorem getArrayForUpdate_declares {re : ReadExpr} : ∀ {head : UpdateNode},
    NodesPlaced place keys re head → Placed place keys head.reads →
    Declares place (re :: head.reads) (getArrayForUpdate keys re head)
  | .null, _, _ => getInitialArray_declares re
  | .node index value next, nodes, placed => by
    obtain ⟨here, nodesNext⟩ := nodes
    obtain ⟨inIndex, below⟩ := forall_mem_append.mp placed
    obtain ⟨inValue, inNext⟩ := forall_mem_append.mp below
    have all := ((getArrayForUpdate_declares nodesNext inNext).andThen (construct_declares inIndex)).andThen (construct_declares inValue)
    intro b sound
    unfold getArrayForUpdate
    dsimp only
    split
    · rename_i hit
      have known := sound.updates _ hit
      rw [here] at known
      exact ⟨sound, prefix_rfl, forall_mem_cons.mpr known⟩
    · obtain ⟨final, grows, declared⟩ := all b sound
      have whole : Declared (construct keys value (construct keys index
          (getArrayForUpdate keys re next b))) (re :: (UpdateNode.node index value next).reads) := by
        intro other member
        apply declared
        simp only [UpdateNode.reads, mem_cons, mem_append] at member ⊢
        tauto
      refine ⟨⟨final.named, final.distinct, final.assertions, final.constructed, ?_⟩, grows, whole⟩
      apply forall_mem_cons.mpr ⟨_, final.updates⟩
      rw [here]
      exact forall_mem_cons.mp whole

end

/-- The builder stays sound and keeps its variables. -/
def Keeps (place : NodeKey → Array × UpdateNode) (f : Z3Builder → Z3Builder) : Prop :=
  ∀ b, Sound place b → Sound place (f b) ∧ b.arrHash <+: (f b).arrHash

end Construction

/-! ## What is asserted -/

def assertionsOf (arrHash : ArrayHash) (root : Array) : List ElementEquality :=
  ((lookupArrayExpr arrHash root).map fun array_expr => elementEqualities array_expr root).getD []

/-- The constant arrays of the query have been declared, and what is asserted are their
equalities. -/
def Asserts (arrHash : ArrayHash) (q : Query) (asserted : List ElementEquality) : Prop :=
  (∀ root ∈ q.constantArrays, root ∈ arrHash.arrays) ∧
    asserted = q.constantArrays.flatMap (assertionsOf arrHash)

/-- All equalities of each constant array of the query are asserted, and none of another array in
their place. -/
def Defines (arrHash : ArrayHash) (q : Query) (asserted : List ElementEquality) : Prop :=
  ∀ root ∈ q.constantArrays, ∃ array_expr, lookupArrayExpr arrHash root = some array_expr ∧
    (∀ equality ∈ elementEqualities array_expr root, equality ∈ asserted) ∧
    ∀ equality ∈ asserted, equality.array = array_expr →
      equality ∈ elementEqualities array_expr root

def ClashFree (arrays : List Array) : Prop :=
  ∀ i j first second, i < j → arrays[i]? = some first → arrays[j]? = some second →
    ¬ Clash first i second j

section Queries

variable {place : NodeKey → Array × UpdateNode} {b b' : Z3Builder} {root other : Array}
  {q : Query} {asserted : List ElementEquality} {array_expr : ArrayVariable}

theorem lookupArrayExpr_isSome (known : root ∈ b.arrHash.arrays) : ∃ array_expr, lookupArrayExpr b.arrHash root = some array_expr := by
  apply Option.ne_none_iff_exists'.mp
  intro missing
  exact lookupArrayExpr_eq_none.mp missing known

theorem Asserts.mono (asserts : Asserts b.arrHash q asserted) (grows : b.arrHash <+: b'.arrHash) : Asserts b'.arrHash q asserted := by
  obtain ⟨declared, same⟩ := asserts
  refine ⟨fun root member => arrays_mono grows (declared root member), ?_⟩
  rw [same]
  apply flatMap_congr
  intro root member
  obtain ⟨array_expr, found⟩ := lookupArrayExpr_isSome (declared root member)
  unfold assertionsOf
  rw [found, lookupArrayExpr_mono grows found]

theorem Sound.position (sound : Sound place b) (found : lookupArrayExpr b.arrHash root = some array_expr) :
    ∃ i, b.arrHash.arrays[i]? = some root ∧ array_expr.name = declaredName root i := by
  obtain ⟨entry, first, rfl⟩ := Option.map_eq_some_iff.mp found
  have same : entry.1 = root := by simpa using find?_some first
  obtain ⟨i, place⟩ := mem_iff_getElem?.mp (mem_of_find?_eq_some first)
  refine ⟨i, ?_, ?_⟩
  · unfold ArrayHash.arrays
    rw [getElem?_map, place, ← same]
    rfl
  · rw [sound.named i entry.1 entry.2 place, same]

theorem Sound.eq_of_variable (sound : Sound place b) (clashFree : ClashFree b.arrHash.arrays)
    (first : lookupArrayExpr b.arrHash root = some array_expr)
    (second : lookupArrayExpr b.arrHash other = some array_expr) : root = other := by
  obtain ⟨i, atFirst, firstName⟩ := sound.position first
  obtain ⟨j, atSecond, secondName⟩ := sound.position second
  rw [firstName] at secondName
  rcases Nat.lt_trichotomy i j with before | same | after
  · exact absurd ((clash_iff before).mpr secondName) (clashFree i j _ _ before atFirst atSecond)
  · subst same
    exact Option.some.inj (atFirst.symm.trans atSecond)
  · exact absurd ((clash_iff after).mpr secondName.symm) (clashFree j i _ _ after atSecond atFirst)

theorem Asserts.defines (sound : Sound place b) (clashFree : ClashFree b.arrHash.arrays)
    (asserts : Asserts b.arrHash q asserted) : Defines b.arrHash q asserted := by
  obtain ⟨declared, same⟩ := asserts
  intro root member
  obtain ⟨array_expr, found⟩ := lookupArrayExpr_isSome (declared root member)
  have own : assertionsOf b.arrHash root = elementEqualities array_expr root := by
    unfold assertionsOf
    rw [found]
    rfl
  refine ⟨array_expr, found, ?_, ?_⟩
  · intro equality inOwn
    rw [same]
    exact mem_flatMap.mpr ⟨root, member, own ▸ inOwn⟩
  · intro equality inAll sameArray
    rw [same] at inAll
    obtain ⟨other, otherMember, inOther⟩ := mem_flatMap.mp inAll
    obtain ⟨variable_, otherFound⟩ := lookupArrayExpr_isSome (declared other otherMember)
    unfold assertionsOf at inOther
    rw [otherFound] at inOther
    have theirs : equality.array = variable_ := by
      obtain ⟨i, -, rfl⟩ := mem_map.mp inOther
      rfl
    rw [theirs] at sameArray
    subst sameArray
    obtain rfl := sound.eq_of_variable clashFree otherFound found
    exact inOther

end Queries

theorem Sound.new (place : NodeKey → Array × UpdateNode) : Sound place .new where
  named := nofun
  distinct := nodup_nil
  assertions := fun root => by split <;> rfl
  constructed := nofun
  updates := nofun

section Tables

def table (n : Nat) : Array := ⟨n, "const_arr" ++ toString n, 1, 32, 8, [BitVec.ofNat 8 n], .inr rfl⟩

def written : UpdateNode := .node (.constant ⟨32, 0#32⟩) (.constant ⟨8, 7#8⟩) .null

end Tables

end NeuroMerge.Z3
