import NeuroMerge.Symbolic.VisitorProperties

/-!
# The array reads of an expression

`findReads`, which walks over an expression and its update lists and visits
nothing twice, and what it finds. The values of an expression depend on the bytes
that its reads may reach.
-/

namespace NeuroMerge.Symbolic

open List

structure ReadExpr where
  root : Array
  head : UpdateNode
  index : Expr
  deriving DecidableEq

mutual

def Expr.reads : Expr → List ReadExpr
  | .constant _ => []
  | .notOptimized src => src.reads
  | .read root head index => ⟨root, head, index⟩ :: (index.reads ++ head.reads)
  | .select cond trueExpr falseExpr => cond.reads ++ (trueExpr.reads ++ falseExpr.reads)
  | .concat left right => left.reads ++ right.reads
  | .extract expr _ _ => expr.reads
  | .not expr => expr.reads
  | .zext src _ => src.reads
  | .sext src _ => src.reads
  | .binary _ left right => left.reads ++ right.reads
  | .cmp _ left right => left.reads ++ right.reads

def UpdateNode.reads : UpdateNode → List ReadExpr
  | .null => []
  | .node position value next => position.reads ++ (value.reads ++ next.reads)

end

mutual

def Expr.nodes : Expr → Nat
  | .constant _ => 1
  | .notOptimized src => src.nodes + 1
  | .read _ head index => index.nodes + head.nodes + 1
  | .select cond trueExpr falseExpr => cond.nodes + (trueExpr.nodes + falseExpr.nodes) + 1
  | .concat left right => left.nodes + right.nodes + 1
  | .extract expr _ _ => expr.nodes + 1
  | .not expr => expr.nodes + 1
  | .zext src _ => src.nodes + 1
  | .sext src _ => src.nodes + 1
  | .binary _ left right => left.nodes + right.nodes + 1
  | .cmp _ left right => left.nodes + right.nodes + 1

def UpdateNode.nodes : UpdateNode → Nat
  | .null => 0
  | .node position value next => position.nodes + (value.nodes + next.nodes)

end

def UpdateNode.kids : UpdateNode → List Expr
  | .null => []
  | .node position value next => position :: value :: next.kids

/-- The variables of `findReads`, the top of the stack first. -/
structure FindReads where
  stack : List Expr
  visited : List Expr
  updates : List UpdateNode
  results : List ReadExpr

namespace FindReads

def push (s : FindReads) (e : Expr) : FindReads :=
  if e.constant? ≠ none ∨ e ∈ s.visited then s
  else { s with stack := e :: s.stack, visited := e :: s.visited }

/-- The update lists that have been gone through are remembered by their heads. -/
def visitUpdates (s : FindReads) (head : UpdateNode) : FindReads :=
  if head ∈ s.updates then s
  else head.kids.foldl push { s with updates := head :: s.updates }

def visit (updates : Bool) (s : FindReads) (top : Expr) : FindReads :=
  match top with
  | .read root head index =>
    let s := push { s with results := s.results ++ [⟨root, head, index⟩] } index
    if updates then s.visitUpdates head else s
  | top => top.kids.foldl push s

/-- The loop, which takes every expression from the stack at most once. -/
def loop (updates : Bool) : Nat → FindReads → FindReads
  | 0, s => s
  | n + 1, s =>
    match s.stack with
    | [] => s
    | top :: stack => loop updates n (visit updates { s with stack := stack } top)

end FindReads

def findReads (e : Expr) (updates : Bool) : List ReadExpr :=
  (FindReads.loop updates e.nodes (FindReads.push ⟨[], [], [], []⟩ e)).results

section Nodes

variable {e : Expr} {head : UpdateNode}

theorem Expr.sum_nodes_kids (e : Expr) (notRead : ∀ root head index, e ≠ .read root head index) :
    (e.kids.map Expr.nodes).sum + 1 = e.nodes := by
  cases e with
  | read root head index => exact absurd rfl (notRead root head index)
  | constant _ => rfl
  | notOptimized _ | extract _ _ _ | not _ | zext _ _ | sext _ _ =>
    simp [Expr.kids, Expr.nodes]
  | select _ _ _ | concat _ _ | binary _ _ _ | cmp _ _ _ =>
    simp [Expr.kids, Expr.nodes]

theorem Expr.nodes_of_mem_kids {kid : Expr} (member : kid ∈ e.kids) : kid.nodes < e.nodes := by
  cases e with
  | constant _ => cases member
  | read _ _ _ | notOptimized _ | extract _ _ _ | not _ | zext _ _ | sext _ _ =>
    obtain rfl := List.mem_singleton.mp member
    simp only [Expr.nodes]
    omega
  | select _ _ _ | concat _ _ | binary _ _ _ | cmp _ _ _ =>
    simp only [Expr.kids, mem_cons, not_mem_nil, or_false] at member
    simp only [Expr.nodes]
    obtain rfl | rfl | rfl := member <;> omega

theorem Expr.reads_eq (e : Expr) (notRead : ∀ root head index, e ≠ .read root head index) : e.reads = e.kids.flatMap Expr.reads := by
  cases e with
  | read root head index => exact absurd rfl (notRead root head index)
  | constant _ | notOptimized _ | extract _ _ _ | not _ | zext _ _ | sext _ _ | select _ _ _
  | concat _ _ | binary _ _ _ | cmp _ _ _ => simp [Expr.kids, Expr.reads]

theorem UpdateNode.sum_nodes_kids : ∀ head : UpdateNode, (head.kids.map Expr.nodes).sum = head.nodes
  | .null => rfl
  | .node position value next => by
    simp [UpdateNode.kids, UpdateNode.nodes, UpdateNode.sum_nodes_kids next]

theorem UpdateNode.nodes_of_mem_kids : ∀ (head : UpdateNode) {kid : Expr}, kid ∈ head.kids →
    kid.nodes ≤ head.nodes
  | .node position value next, kid, member => by
    rw [UpdateNode.nodes]
    obtain _ | ⟨_, _ | ⟨_, later⟩⟩ := member
    · omega
    · omega
    · have bound := UpdateNode.nodes_of_mem_kids next later
      omega

theorem UpdateNode.reads_eq : ∀ head : UpdateNode, head.reads = head.kids.flatMap Expr.reads
  | .null => rfl
  | .node position value next => by
    simp [UpdateNode.reads, UpdateNode.kids, UpdateNode.reads_eq next]

/-- What is left to take from the stack is bounded by the expressions in it. -/
def FindReads.pending (s : FindReads) : Nat := (s.stack.map Expr.nodes).sum

namespace FindReads

variable {s : FindReads} {updates : Bool}

theorem pending_push (s : FindReads) (e : Expr) : (s.push e).pending ≤ s.pending + e.nodes := by
  rw [push]
  split
  · omega
  · simp [pending]
    omega

theorem pending_pushes (s : FindReads) (kids : List Expr) : (kids.foldl push s).pending ≤ s.pending + (kids.map Expr.nodes).sum := by
  induction kids generalizing s with
  | nil => simp
  | cons kid kids ih =>
    have later := ih (s.push kid)
    have first := pending_push s kid
    simp only [foldl_cons, map_cons, sum_cons]
    omega

theorem pending_visitUpdates (s : FindReads) (head : UpdateNode) : (s.visitUpdates head).pending ≤ s.pending + head.nodes := by
  rw [visitUpdates, ← head.sum_nodes_kids]
  split
  · omega
  · exact pending_pushes { s with updates := head :: s.updates } head.kids

theorem pending_visit (s : FindReads) (top : Expr) : (visit updates s top).pending + 1 ≤ s.pending + top.nodes := by
  fun_cases visit updates s top with
  | case1 root head index pushed visited =>
    have first := pending_push { s with results := s.results ++ [⟨root, head, index⟩] } index
    have later := pending_visitUpdates pushed head
    rw [Expr.nodes]
    change pushed.pending ≤ s.pending + index.nodes at first
    omega
  | case2 root head index pushed visited =>
    have first := pending_push { s with results := s.results ++ [⟨root, head, index⟩] } index
    rw [Expr.nodes]
    change pushed.pending ≤ s.pending + index.nodes at first
    omega
  | case3 _ notRead =>
    have bound := pending_pushes s top.kids
    have nodes := top.sum_nodes_kids fun root head index same => notRead root head index same
    omega

theorem stack_eq_nil (none : s.pending = 0) : s.stack = [] := by
  cases stack : s.stack with
  | nil => rfl
  | cons top rest =>
    have positive : 0 < top.nodes := by cases top <;> simp [Expr.nodes]
    rw [pending, stack, map_cons, sum_cons] at none
    omega

end FindReads

end Nodes

namespace FindReads

variable {s s' s'' : FindReads} {e kid : Expr}

def Seen (s : FindReads) (e : Expr) : Prop := e.constant? ≠ none ∨ e ∈ s.visited

structure Grows (s s' : FindReads) : Prop where
  visited : s.visited ⊆ s'.visited
  stack : s.stack ⊆ s'.stack
  results : s.results ⊆ s'.results
  fresh : ∀ e ∈ s'.visited, e ∈ s.visited ∨ e ∈ s'.stack

theorem Grows.refl (s : FindReads) : Grows s s :=
  ⟨fun _ => id, fun _ => id, fun _ => id, fun _ => .inl⟩

theorem Grows.trans (first : Grows s s') (second : Grows s' s'') : Grows s s'' where
  visited := List.Subset.trans first.visited second.visited
  stack := List.Subset.trans first.stack second.stack
  results := List.Subset.trans first.results second.results
  fresh e member := by
    cases second.fresh e member with
    | inl earlier => exact (first.fresh e earlier).imp id fun onStack => second.stack onStack
    | inr onStack => exact .inr onStack

theorem Seen.grows (seen : s.Seen e) (grows : Grows s s') : s'.Seen e :=
  seen.imp id fun member => grows.visited member

theorem push_spec (s : FindReads) (e : Expr) : Grows s (s.push e) ∧ (s.push e).Seen e ∧ (s.push e).updates = s.updates := by
  rw [push]
  split
  case isTrue seen => exact ⟨.refl s, seen, rfl⟩
  case isFalse =>
    refine ⟨⟨subset_cons_self _ _, subset_cons_self _ _, fun _ => id, ?_⟩, .inr (by simp), rfl⟩
    intro other member
    cases List.mem_cons.mp member with
    | inl same => exact .inr (by simp [same])
    | inr earlier => exact .inl earlier

theorem pushes_spec (s : FindReads) (kids : List Expr) :
    Grows s (kids.foldl push s) ∧ (∀ kid ∈ kids, (kids.foldl push s).Seen kid) ∧ (kids.foldl push s).updates = s.updates := by
  induction kids generalizing s with
  | nil => exact ⟨.refl s, nofun, rfl⟩
  | cons kid kids ih =>
    obtain ⟨first, seen, same⟩ := push_spec s kid
    obtain ⟨later, seenLater, sameLater⟩ := ih (s.push kid)
    refine ⟨first.trans later, ?_, sameLater.trans same⟩
    intro other member
    cases List.mem_cons.mp member with
    | inl isFirst => exact isFirst ▸ seen.grows later
    | inr inRest => exact seenLater other inRest

structure Done (s : FindReads) (e : Expr) : Prop where
  kids : ∀ kid ∈ e.kids, s.Seen kid
  read : ∀ root head index, e = .read root head index →
    ⟨root, head, index⟩ ∈ s.results ∧ ∀ kid ∈ head.kids, s.Seen kid

theorem Done.grows (done : s.Done e) (grows : Grows s s') : s'.Done e where
  kids kid member := (done.kids kid member).grows grows
  read root head index isRead :=
    ⟨grows.results (done.read root head index isRead).1, fun kid member => ((done.read root head index isRead).2 kid member).grows grows⟩

def Remembers (s : FindReads) : Prop := ∀ head ∈ s.updates, ∀ kid ∈ head.kids, s.Seen kid

theorem Remembers.grows (remembers : s.Remembers) (grows : Grows s s') (same : s'.updates = s.updates) : s'.Remembers := by
  intro head member kid isKid
  rw [same] at member
  exact (remembers head member kid isKid).grows grows

theorem visitUpdates_spec (remembers : s.Remembers) (head : UpdateNode) :
    Grows s (s.visitUpdates head) ∧ (∀ kid ∈ head.kids, (s.visitUpdates head).Seen kid) ∧ (s.visitUpdates head).Remembers := by
  rw [visitUpdates]
  split
  case isTrue member => exact ⟨.refl s, remembers head member, remembers⟩
  case isFalse =>
    obtain ⟨pushed, seen, same⟩ := pushes_spec { s with updates := head :: s.updates } head.kids
    have grows : Grows s (head.kids.foldl push { s with updates := head :: s.updates }) :=
      ⟨pushed.visited, pushed.stack, pushed.results, pushed.fresh⟩
    refine ⟨grows, seen, ?_⟩
    intro other member kid isKid
    rw [same] at member
    cases List.mem_cons.mp member with
    | inl isHead => exact seen kid (isHead ▸ isKid)
    | inr earlier => exact (remembers other earlier kid isKid).grows grows

theorem visit_spec (remembers : s.Remembers) (top : Expr) :
    Grows s (visit true s top) ∧ (visit true s top).Done top ∧ (visit true s top).Remembers := by
  fun_cases visit true s top with
  | case1 root head index pushed _ =>
    obtain ⟨grows, seen, same⟩ := push_spec { s with results := s.results ++ [⟨root, head, index⟩] } index
    have first : Grows s pushed := by
      refine ⟨grows.visited, grows.stack, ?_, grows.fresh⟩
      exact List.Subset.trans (subset_append_left _ _) grows.results
    have found : ⟨root, head, index⟩ ∈ pushed.results := grows.results (by simp)
    obtain ⟨later, seenUpdates, remembersLater⟩ := visitUpdates_spec (remembers.grows first same) head
    refine ⟨first.trans later, ⟨?_, ?_⟩, remembersLater⟩
    · intro kid isKid
      rw [List.mem_singleton.mp isKid]
      exact seen.grows later
    · intro _ _ _ isRead
      cases isRead
      exact ⟨later.results found, seenUpdates⟩
  | case2 root head index pushed notUpdates => exact absurd rfl notUpdates
  | case3 _ notRead =>
    obtain ⟨grows, seen, same⟩ := pushes_spec s top.kids
    exact ⟨grows, ⟨seen, fun root head index isRead => (notRead root head index isRead).elim⟩, remembers.grows grows same⟩

/-- Whatever has been seen waits on the stack or is done. -/
structure Invariant (s : FindReads) : Prop where
  visited : ∀ e ∈ s.visited, e ∈ s.stack ∨ s.Done e
  remembers : s.Remembers

theorem Invariant.visit {top : Expr} {rest : List Expr} (invariant : s.Invariant) (onTop : s.stack = top :: rest) :
    (FindReads.visit true { s with stack := rest } top).Invariant := by
  obtain ⟨grows, done, remembers⟩ := visit_spec (s := { s with stack := rest }) invariant.remembers top
  refine ⟨?_, remembers⟩
  intro e member
  cases grows.fresh e member with
  | inr onStack => exact .inl onStack
  | inl earlier =>
    cases invariant.visited e earlier with
    | inl onStack =>
      rw [onTop] at onStack
      cases List.mem_cons.mp onStack with
      | inl isTop => exact .inr (isTop ▸ done)
      | inr below => exact .inl (grows.stack below)
    | inr isDone =>
      have unchanged : ({ s with stack := rest } : FindReads).Done e := ⟨isDone.kids, isDone.read⟩
      exact .inr (unchanged.grows grows)

theorem loop_spec (n : Nat) (invariant : s.Invariant) (enough : s.pending ≤ n) :
    (loop true n s).Invariant ∧ (loop true n s).stack = [] ∧ s.visited ⊆ (loop true n s).visited := by
  induction n generalizing s with
  | zero => exact ⟨invariant, stack_eq_nil (Nat.le_zero.mp enough), fun _ => id⟩
  | succ n ih =>
    rw [loop]
    cases onTop : s.stack with
    | nil => exact ⟨invariant, onTop, fun _ => id⟩
    | cons top rest =>
      have bound : (visit true { s with stack := rest } top).pending + 1 ≤
          ({ s with stack := rest } : FindReads).pending + top.nodes :=
        pending_visit _ top
      have split : s.pending = top.nodes + ({ s with stack := rest } : FindReads).pending := by
        simp [pending, onTop]
      obtain ⟨final, empty, visited⟩ := ih (invariant.visit onTop) (by omega)
      obtain ⟨grows, -⟩ := visit_spec (s := { s with stack := rest }) invariant.remembers top
      exact ⟨final, empty, List.Subset.trans grows.visited visited⟩

theorem Invariant.done (invariant : s.Invariant) (empty : s.stack = []) (seen : s.Seen e)
    (notConstant : e.constant? = none) : s.Done e := by
  cases seen with
  | inl isConstant => exact absurd notConstant isConstant
  | inr visited =>
    apply (invariant.visited e visited).resolve_left
    rw [empty]
    exact not_mem_nil

theorem Invariant.reads (invariant : s.Invariant) (empty : s.stack = []) (e : Expr) (seen : s.Seen e) : e.reads ⊆ s.results := by
  by_cases isConstant : e.constant? = none
  · have done := invariant.done empty seen isConstant
    by_cases isRead : ∃ root head index, e = .read root head index
    · obtain ⟨root, head, index, same⟩ := isRead
      have nodes : e.nodes = index.nodes + head.nodes + 1 := by rw [same, Expr.nodes]
      obtain ⟨found, updates⟩ := done.read root head index same
      rw [same, Expr.reads, head.reads_eq]
      apply List.cons_subset.mpr ⟨found, List.append_subset.mpr ⟨?_, ?_⟩⟩
      · exact invariant.reads empty index (done.kids index (by simp [same, Expr.kids]))
      · intro re member
        obtain ⟨kid, isKid, inKid⟩ := mem_flatMap.mp member
        have fewer := head.nodes_of_mem_kids isKid
        exact invariant.reads empty kid (updates kid isKid) inKid
    · have notRead : ∀ root head index, e ≠ .read root head index := fun root head index same => isRead ⟨root, head, index, same⟩
      rw [e.reads_eq notRead]
      intro re member
      obtain ⟨kid, isKid, inKid⟩ := mem_flatMap.mp member
      have fewer := e.nodes_of_mem_kids isKid
      exact invariant.reads empty kid (done.kids kid isKid) inKid
  · cases constant : e.constant? with
    | none => exact absurd constant isConstant
    | some ce =>
      rw [Expr.constant?_eq_some.mp constant]
      exact nil_subset _
termination_by e.nodes
decreasing_by all_goals omega

structure Within (reads : List ReadExpr) (s : FindReads) : Prop where
  stack : ∀ e ∈ s.stack, e.reads ⊆ reads
  results : s.results ⊆ reads

variable {reads : List ReadExpr}

theorem Within.push (within : Within reads s) (inside : e.reads ⊆ reads) : Within reads (s.push e) := by
  rw [FindReads.push]
  split
  · exact within
  · exact ⟨List.forall_mem_cons.mpr ⟨inside, within.stack⟩, within.results⟩

theorem Within.pushes (within : Within reads s) {kids : List Expr}
    (inside : ∀ kid ∈ kids, kid.reads ⊆ reads) : Within reads (kids.foldl FindReads.push s) := by
  induction kids generalizing s with
  | nil => exact within
  | cons kid kids ih =>
    rw [forall_mem_cons] at inside
    exact ih (within.push inside.1) inside.2

theorem Within.visitUpdates (within : Within reads s) {head : UpdateNode}
    (inside : head.reads ⊆ reads) : Within reads (s.visitUpdates head) := by
  rw [FindReads.visitUpdates]
  split
  · exact within
  · have remembered : Within reads { s with updates := head :: s.updates } :=
      ⟨within.stack, within.results⟩
    apply remembered.pushes
    intro kid isKid re member
    rw [head.reads_eq] at inside
    exact inside (mem_flatMap.mpr ⟨kid, isKid, member⟩)

theorem Within.visit {updates : Bool} (within : Within reads s) {top : Expr}
    (inside : top.reads ⊆ reads) : Within reads (FindReads.visit updates s top) := by
  have pushed {root : Array} {head : UpdateNode} {index : Expr} (inside : (Expr.read root head index).reads ⊆ reads) :
      Within reads (FindReads.push { s with results := s.results ++ [⟨root, head, index⟩] } index) ∧
        head.reads ⊆ reads := by
    rw [Expr.reads, cons_subset, append_subset] at inside
    obtain ⟨here, inIndex, inUpdates⟩ := inside
    have found : Within reads { s with results := s.results ++ [⟨root, head, index⟩] } :=
      ⟨within.stack, List.append_subset.mpr ⟨within.results, List.cons_subset.mpr ⟨here, nil_subset _⟩⟩⟩
    exact ⟨found.push inIndex, inUpdates⟩
  fun_cases FindReads.visit updates s top with
  | case1 root head index _ _ =>
    obtain ⟨first, inUpdates⟩ := pushed inside
    exact first.visitUpdates inUpdates
  | case2 root head index _ _ => exact (pushed inside).1
  | case3 _ notRead =>
    apply within.pushes
    intro kid isKid re member
    apply inside
    rw [top.reads_eq fun root head index same => notRead root head index same]
    exact mem_flatMap.mpr ⟨kid, isKid, member⟩

theorem Within.loop {updates : Bool} (n : Nat) (within : Within reads s) : (FindReads.loop updates n s).results ⊆ reads := by
  induction n generalizing s with
  | zero => exact within.results
  | succ n ih =>
    rw [FindReads.loop]
    cases onTop : s.stack with
    | nil => exact within.results
    | cons top rest =>
      have inside := within.stack
      rw [onTop, forall_mem_cons] at inside
      have popped : Within reads { s with stack := rest } := ⟨inside.2, within.results⟩
      exact ih (popped.visit inside.1)

end FindReads

theorem findReads_sound (e : Expr) (updates : Bool) : findReads e updates ⊆ e.reads := by
  have nothing : FindReads.Within e.reads ⟨[], [], [], []⟩ := ⟨nofun, nil_subset _⟩
  exact (nothing.push (.refl _)).loop e.nodes

theorem findReads_complete (e : Expr) : e.reads ⊆ findReads e true := by
  obtain ⟨grows, seen, unremembered⟩ := FindReads.push_spec ⟨[], [], [], []⟩ e
  have nothing : (⟨[], [], [], []⟩ : FindReads).Remembers := fun _ member => nomatch member
  have start : (FindReads.push ⟨[], [], [], []⟩ e).Invariant := by
    constructor
    · intro other member
      exact .inl ((grows.fresh other member).resolve_left nofun)
    · exact nothing.grows grows unremembered
  have bound := FindReads.pending_push ⟨[], [], [], []⟩ e
  have none : (⟨[], [], [], []⟩ : FindReads).pending = 0 := rfl
  obtain ⟨invariant, empty, visited⟩ := FindReads.loop_spec e.nodes start (by omega)
  exact invariant.reads empty e (seen.imp id fun member => visited member)

theorem UpdateNode.WellFormed.of_mem_kids {guards : Guards} {root : Array} :
    ∀ {head : UpdateNode}, head.WellFormed guards root → ∀ kid ∈ head.kids, kid.WellFormed guards
  | .null, _, _, member => nomatch member
  | .node _ _ _, wellFormed, kid, member => by
    obtain ⟨position, -, value, -, next⟩ := wellFormed
    obtain _ | ⟨_, _ | ⟨_, later⟩⟩ := member
    · exact position
    · exact value
    · exact next.of_mem_kids kid later

theorem Expr.WellFormed.index_width {guards : Guards} {e : Expr} (wellFormed : e.WellFormed guards) :
    ∀ re ∈ e.reads, re.index.width = re.root.domain := by
  by_cases isRead : ∃ root head index, e = .read root head index
  · obtain ⟨root, head, index, same⟩ := isRead
    have nodes : e.nodes = index.nodes + head.nodes + 1 := by rw [same, Expr.nodes]
    rw [same] at wellFormed ⊢
    obtain ⟨updates, wellFormedIndex, width, -⟩ := wellFormed
    rw [Expr.reads, forall_mem_cons, forall_mem_append]
    refine ⟨width, wellFormedIndex.index_width, ?_⟩
    intro re member
    rw [head.reads_eq] at member
    obtain ⟨kid, isKid, inKid⟩ := mem_flatMap.mp member
    have fewer := head.nodes_of_mem_kids isKid
    exact (updates.of_mem_kids kid isKid).index_width re inKid
  · have notRead : ∀ root head index, e ≠ .read root head index := fun root head index same => isRead ⟨root, head, index, same⟩
    intro re member
    rw [e.reads_eq notRead] at member
    obtain ⟨kid, isKid, inKid⟩ := mem_flatMap.mp member
    have fewer := e.nodes_of_mem_kids isKid
    exact (wellFormed.of_mem_kids kid isKid).index_width re inKid
termination_by e.nodes
decreasing_by all_goals omega

section Values

variable {ρ ρ' : Assignment}

def ReadExpr.Agrees (ρ ρ' : Assignment) (re : ReadExpr) : Prop :=
  re.root.initial ρ (re.index.eval ρ re.root.domain).toNat =
    re.root.initial ρ' (re.index.eval ρ re.root.domain).toNat

mutual

theorem Expr.eval_congr : ∀ {e : Expr}, (∀ re ∈ e.reads, re.Agrees ρ ρ') → ∀ w : Nat,
    e.eval ρ w = e.eval ρ' w
  | .constant _, _, _ => rfl
  | .notOptimized src, agree, w => Expr.eval_congr (e := src) agree w
  | .read root head index, agree, w => by
    rw [Expr.reads, forall_mem_cons, forall_mem_append] at agree
    obtain ⟨here, inIndex, inHead⟩ := agree
    have sameIndex := Expr.eval_congr inIndex root.domain
    rw [Expr.eval, Expr.eval, ← sameIndex, UpdateNode.eval_congr inHead (index.eval ρ root.domain) here]
  | .select cond trueExpr falseExpr, agree, w => by
    rw [Expr.reads, forall_mem_append, forall_mem_append] at agree
    obtain ⟨inCond, inTrue, inFalse⟩ := agree
    rw [Expr.eval, Expr.eval, Expr.eval_congr inCond, Expr.eval_congr inTrue, Expr.eval_congr inFalse]
  | .concat left right, agree, w => by
    rw [Expr.reads, forall_mem_append] at agree
    rw [Expr.eval, Expr.eval, Expr.eval_congr agree.1, Expr.eval_congr agree.2]
  | .extract expr _ _, agree, w => by
    rw [Expr.eval, Expr.eval, Expr.eval_congr (e := expr) agree]
  | .not expr, agree, w => by
    rw [Expr.eval, Expr.eval, Expr.eval_congr (e := expr) agree]
  | .zext src _, agree, w => by
    rw [Expr.eval, Expr.eval, Expr.eval_congr (e := src) agree]
  | .sext src _, agree, w => by
    rw [Expr.eval, Expr.eval, Expr.eval_congr (e := src) agree]
  | .binary _ left right, agree, w => by
    rw [Expr.reads, forall_mem_append] at agree
    rw [Expr.eval, Expr.eval, Expr.eval_congr agree.1, Expr.eval_congr agree.2]
  | .cmp _ left right, agree, w => by
    rw [Expr.reads, forall_mem_append] at agree
    rw [Expr.eval, Expr.eval, Expr.eval_congr agree.1, Expr.eval_congr agree.2]

theorem UpdateNode.eval_congr {root : Array} : ∀ {head : UpdateNode},
    (∀ re ∈ head.reads, re.Agrees ρ ρ') → ∀ index : BitVec root.domain,
    root.initial ρ index.toNat = root.initial ρ' index.toNat →
    head.eval ρ root index = head.eval ρ' root index
  | .null, _, _, here => here
  | .node position value next, agree, index, here => by
    rw [UpdateNode.reads, forall_mem_append, forall_mem_append] at agree
    obtain ⟨inPosition, inValue, inNext⟩ := agree
    rw [UpdateNode.eval, UpdateNode.eval, Expr.eval_congr inPosition, Expr.eval_congr inValue, UpdateNode.eval_congr inNext index here]

end

/-- The bytes of the array that the read may reach. -/
def ReadExpr.bytes (re : ReadExpr) : Set (Array × Nat) :=
  {byte | byte.1 = re.root ∧ ∃ ρ, byte.2 = (re.index.eval ρ re.root.domain).toNat}

/-- The read gets what a constant array has had from the beginning. -/
def ReadExpr.Fixed (re : ReadExpr) : Prop := re.root.isConstantArray = true ∧ re.head = .null

def Expr.bytes (e : Expr) : Set (Array × Nat) := {byte | ∃ re ∈ e.reads, byte ∈ re.bytes}

/-- Those that it may read other than from a constant array without updates. -/
def Expr.freeBytes (e : Expr) : Set (Array × Nat) :=
  {byte | ∃ re ∈ e.reads, ¬ re.Fixed ∧ byte ∈ re.bytes}

def Expr.InBounds (ρ : Assignment) (e : Expr) : Prop :=
  ∀ re ∈ e.reads, re.root.isConstantArray = true →
    (re.index.eval ρ re.root.domain).toNat < re.root.size

open scoped Classical in
noncomputable def splice (bytes : Set (Array × Nat)) (ρ ρ' : Assignment) : Assignment :=
  fun root i => if (root, i) ∈ bytes then ρ root i else ρ' root i

theorem Array.initial_of_symbolic {root : Array} (symbolic : root.isSymbolicArray = true) (i : Nat) : root.initial ρ i = ρ root i := by
  have none : root.constantValues = [] := List.isEmpty_iff.mp symbolic
  simp [Array.initial, none]

theorem Array.initial_of_constant {root : Array} (isConstant : root.isConstantArray = true) {i : Nat}
    (within : i < root.size) : root.initial ρ i = root.initial ρ' i := by
  cases root.validSize with
  | inl none => simp [Array.isConstantArray, Array.isSymbolicArray, none] at isConstant
  | inr size =>
    rw [← size] at within
    simp [Array.initial, within]

theorem Array.symbolic_or_constant (root : Array) : root.isSymbolicArray = true ∨ root.isConstantArray = true := by
  rw [Array.isConstantArray]
  cases root.isSymbolicArray <;> simp

theorem Expr.eval_splice_inside {bytes : Set (Array × Nat)} {e : Expr} (inBounds : e.InBounds ρ)
    (inside : ∀ byte ∈ e.freeBytes, byte.1.isSymbolicArray = true → byte ∈ bytes) (w : Nat) :
    e.eval (splice bytes ρ ρ') w = e.eval ρ w := by
  symm
  apply Expr.eval_congr
  intro re member
  rw [ReadExpr.Agrees]
  cases re.root.symbolic_or_constant with
  | inl symbolic =>
    have notFixed : ¬ re.Fixed := by
      intro fixed
      have isConstant := fixed.1
      simp [Array.isConstantArray, symbolic] at isConstant
    rw [Array.initial_of_symbolic symbolic, Array.initial_of_symbolic symbolic, splice, if_pos]
    exact inside _ ⟨re, member, notFixed, rfl, ρ, rfl⟩ symbolic
  | inr isConstant => exact Array.initial_of_constant isConstant (inBounds re member isConstant)

theorem Expr.eval_splice_outside {bytes : Set (Array × Nat)} {e : Expr} (outside : ∀ byte ∈ e.freeBytes, byte ∉ bytes)
    (symbolic : ∀ byte ∈ bytes, byte.1.isSymbolicArray = true) (w : Nat) : e.eval (splice bytes ρ ρ') w = e.eval ρ' w := by
  symm
  apply Expr.eval_congr
  intro re member
  have apart : (re.root, (re.index.eval ρ' re.root.domain).toNat) ∉ bytes := by
    intro inside
    by_cases fixed : re.Fixed
    · have isSymbolic := symbolic _ inside
      have isConstant := fixed.1
      simp [Array.isConstantArray, isSymbolic] at isConstant
    · exact outside _ ⟨re, member, fixed, rfl, ρ', rfl⟩ inside
  rw [ReadExpr.Agrees, Array.initial, Array.initial, splice, if_neg apart]

end Values

/-! ## Symbolic objects -/

/-- The expressions that `ExprVisitor` remembers, and the arrays found. -/
structure SymbolicObjectFinder where
  visited : List Expr
  objects : List Array

namespace SymbolicObjectFinder

/-- `ExprVisitor::visit`, which visits an expression once if the hash is used. -/
def once (useVisitorHash : Bool) (e : Expr) (visitActual : SymbolicObjectFinder → SymbolicObjectFinder)
    (s : SymbolicObjectFinder) : SymbolicObjectFinder :=
  if useVisitorHash = true then
    if e ∈ s.visited then s
    else
      let s := visitActual s
      { s with visited := e :: s.visited }
  else visitActual s

def add (root : Array) (s : SymbolicObjectFinder) : SymbolicObjectFinder :=
  if root.isSymbolicArray = true ∧ root ∉ s.objects then { s with objects := s.objects ++ [root] }
  else s

variable (useVisitorHash : Bool)

mutual

def visit : Expr → SymbolicObjectFinder → SymbolicObjectFinder
  | .constant _ => id
  | .notOptimized src => once useVisitorHash (.notOptimized src) (visit src)
  | .read root head index =>
    once useVisitorHash (.read root head index) (visit index ∘ add root ∘ visitUpdates head)
  | .select cond trueExpr falseExpr =>
    once useVisitorHash (.select cond trueExpr falseExpr)
      (visit falseExpr ∘ visit trueExpr ∘ visit cond)
  | .concat left right => once useVisitorHash (.concat left right) (visit right ∘ visit left)
  | .extract expr offset width => once useVisitorHash (.extract expr offset width) (visit expr)
  | .not expr => once useVisitorHash (.not expr) (visit expr)
  | .zext src width => once useVisitorHash (.zext src width) (visit src)
  | .sext src width => once useVisitorHash (.sext src width) (visit src)
  | .binary kind left right =>
    once useVisitorHash (.binary kind left right) (visit right ∘ visit left)
  | .cmp kind left right => once useVisitorHash (.cmp kind left right) (visit right ∘ visit left)

def visitUpdates : UpdateNode → SymbolicObjectFinder → SymbolicObjectFinder
  | .null => id
  | .node position value next => visitUpdates next ∘ visit value ∘ visit position

end

end SymbolicObjectFinder

def findSymbolicObjects (useVisitorHash : Bool) (e : Expr) : List Array :=
  (SymbolicObjectFinder.visit useVisitorHash e ⟨[], []⟩).objects

namespace SymbolicObjectFinder

def Covers (objects : List Array) (reads : List ReadExpr) : Prop :=
  ∀ re ∈ reads, re.root.isSymbolicArray = true → re.root ∈ objects

/-- Of what is remembered all arrays have been found, and so they are of the reads that the step
goes through. -/
def Finds (reads : List ReadExpr) (step : SymbolicObjectFinder → SymbolicObjectFinder) : Prop :=
  ∀ s, (∀ e ∈ s.visited, Covers s.objects e.reads) →
    (∀ e ∈ (step s).visited, Covers (step s).objects e.reads) ∧
      s.objects ⊆ (step s).objects ∧ Covers (step s).objects reads

section

variable {useVisitorHash : Bool} {reads reads' : List ReadExpr} {step step' : SymbolicObjectFinder → SymbolicObjectFinder}

theorem Covers.mono {objects objects' : List Array} (covers : Covers objects reads) (more : objects ⊆ objects') : Covers objects' reads :=
  fun re member symbolic => more (covers re member symbolic)

theorem Finds.id : Finds [] id :=
  fun _ sound => ⟨sound, .refl _, nofun⟩

theorem Finds.comp (second : Finds reads' step') (first : Finds reads step) : Finds (reads ++ reads') (step' ∘ step) := by
  intro s sound
  obtain ⟨sound, more, covers⟩ := first s sound
  obtain ⟨sound, more', covers'⟩ := second (step s) sound
  refine ⟨sound, List.Subset.trans more more', fun re member => ?_⟩
  rcases List.mem_append.mp member with earlier | later
  · exact covers.mono more' re earlier
  · exact covers' re later

theorem Finds.once {e : Expr} (finds : Finds e.reads step) : Finds e.reads (once useVisitorHash e step) := by
  intro s sound
  rw [SymbolicObjectFinder.once]
  split
  · split
    · rename_i member
      exact ⟨sound, .refl _, sound e member⟩
    · obtain ⟨sound, more, covers⟩ := finds s sound
      exact ⟨List.forall_mem_cons.mpr ⟨covers, sound⟩, more, covers⟩
  · exact finds s sound

theorem Finds.add (re : ReadExpr) : Finds [re] (add re.root) := by
  intro s sound
  have more : s.objects ⊆ (SymbolicObjectFinder.add re.root s).objects := by
    rw [SymbolicObjectFinder.add]
    split
    · exact subset_append_left _ _
    · exact .refl _
  have same : (SymbolicObjectFinder.add re.root s).visited = s.visited := by
    rw [SymbolicObjectFinder.add]
    split <;> rfl
  refine ⟨?_, more, ?_⟩
  · rw [same]
    exact fun e member => (sound e member).mono more
  · intro other member symbolic
    rw [List.mem_singleton.mp member] at symbolic ⊢
    rw [SymbolicObjectFinder.add]
    split
    · simp
    · rename_i none
      exact Decidable.not_not.mp fun missing => none ⟨symbolic, missing⟩

theorem Finds.of_subset (finds : Finds reads step) (within : reads' ⊆ reads) : Finds reads' step :=
  fun s sound =>
    have ⟨sound, more, covers⟩ := finds s sound
    ⟨sound, more, fun re member => covers re (within member)⟩

end

variable {useVisitorHash : Bool}

mutual

theorem visit_finds : ∀ e : Expr, Finds e.reads (visit useVisitorHash e)
  | .constant _ => .id
  | .notOptimized src => Finds.once (e := .notOptimized src) (visit_finds src)
  | .read root head index => by
    have steps := (visit_finds index).comp ((Finds.add ⟨root, head, index⟩).comp (visitUpdates_finds head))
    refine .once (e := .read root head index) (steps.of_subset fun re member => ?_)
    simp only [Expr.reads, mem_cons, mem_append] at member ⊢
    tauto
  | .select cond trueExpr falseExpr => by
    have steps := (visit_finds falseExpr).comp ((visit_finds trueExpr).comp (visit_finds cond))
    refine .once (e := .select cond trueExpr falseExpr) (steps.of_subset fun re member => ?_)
    simpa only [Expr.reads, append_assoc] using member
  | .concat left right =>
    .once (e := .concat left right) ((visit_finds right).comp (visit_finds left))
  | .extract expr offset width =>
    .once (e := .extract expr offset width) (visit_finds expr)
  | .not expr => .once (e := .not expr) (visit_finds expr)
  | .zext src width => .once (e := .zext src width) (visit_finds src)
  | .sext src width => .once (e := .sext src width) (visit_finds src)
  | .binary kind left right =>
    .once (e := .binary kind left right) ((visit_finds right).comp (visit_finds left))
  | .cmp kind left right =>
    .once (e := .cmp kind left right) ((visit_finds right).comp (visit_finds left))

theorem visitUpdates_finds : ∀ head : UpdateNode, Finds head.reads (visitUpdates useVisitorHash head)
  | .null => .id
  | .node position value next => by
    have steps := (visitUpdates_finds next).comp ((visit_finds value).comp (visit_finds position))
    rw [append_assoc] at steps
    exact steps

end

end SymbolicObjectFinder

section Completeness

variable {ρ ρ' : Assignment} {e : Expr}

theorem findSymbolicObjects_covers (useVisitorHash : Bool) (e : Expr) :
    SymbolicObjectFinder.Covers (findSymbolicObjects useVisitorHash e) e.reads :=
  (SymbolicObjectFinder.visit_finds e ⟨[], []⟩ nofun).2.2

/-- The byte that the read gets, and any byte of the array unless the index is constant. -/
def ReadExpr.Reports (re : ReadExpr) (i : Nat) : Prop :=
  ∀ c, re.index = .constant c → i = (c.value.setWidth re.root.domain).toNat

/-- What is read behind the end of an array does not depend on the assignment. -/
def SameOutside (ρ ρ' : Assignment) : Prop :=
  ∀ (root : Array) (i : Nat), root.size ≤ i → ρ root i = ρ' root i

theorem eval_eq_of_reported (outside : SameOutside ρ ρ')
    (same : ∀ re ∈ e.reads, re.root.isSymbolicArray = true → ∀ i < re.root.size, re.Reports i →
      ρ re.root i = ρ' re.root i) (w : Nat) : e.eval ρ w = e.eval ρ' w := by
  refine Expr.eval_congr (fun re member => ?_) w
  rw [ReadExpr.Agrees]
  by_cases within : (re.index.eval ρ re.root.domain).toNat < re.root.size
  · cases re.root.symbolic_or_constant with
    | inl symbolic =>
      rw [Array.initial_of_symbolic symbolic, Array.initial_of_symbolic symbolic]
      refine same re member symbolic _ within fun c isConstant => ?_
      rw [isConstant]
      rfl
    | inr isConstant => exact Array.initial_of_constant isConstant within
  · rw [Array.initial, Array.initial, outside re.root _ (Nat.not_lt.mp within)]

/-- What the two functions report determines the value of an expression. -/
theorem reported_determines_value (useVisitorHash : Bool) (e : Expr) (outside : SameOutside ρ ρ') :
    ((∀ re ∈ findReads e true, ∀ i < re.root.size, re.Reports i → ρ re.root i = ρ' re.root i) →
      ∀ w, e.eval ρ w = e.eval ρ' w) ∧
    ((∀ root ∈ findSymbolicObjects useVisitorHash e, ∀ i < root.size, ρ root i = ρ' root i) →
      ∀ w, e.eval ρ w = e.eval ρ' w) := by
  constructor
  · intro same w
    exact eval_eq_of_reported outside (fun re member _ => same re (findReads_complete e member)) w
  · intro same w
    exact eval_eq_of_reported outside (fun re member symbolic i within _ =>
      same re.root (findSymbolicObjects_covers useVisitorHash e re member symbolic) i within) w

def writtenArray : Array := .symbolic 0 "a" 2

def storedArray : Array := .symbolic 1 "b" 2

/-- A write of the second byte of the one array to the first of the other. -/
def storedByte : UpdateNode :=
  .node (.constant ⟨32, 0⟩) (.read storedArray .null (.constant ⟨32, 1⟩)) .null

/-- Both reads are behind the same write. -/
def writtenWord : Expr :=
  .concat (.read writtenArray storedByte (.constant ⟨32, 1⟩)) (.read writtenArray storedByte (.constant ⟨32, 0⟩))

/-- The first byte of what is stored is not read, and other arrays are not either. -/
theorem reported_determines_value_sample :
    writtenWord.eval (fun _ _ => 0) 16 =
        writtenWord.eval (fun root i => if root = storedArray ∧ i = 0 then 1 else 0) 16 ∧
      writtenWord.eval (fun _ _ => 0) 16 =
        writtenWord.eval (fun root i => if root.id < 2 ∨ root.size ≤ i then 0 else 1) 16 := by
  constructor
  · refine (reported_determines_value true writtenWord fun root i behind => ?_).1 (fun re member i _ reports => ?_) 16
    · rw [if_neg]
      rintro ⟨rfl, rfl⟩
      exact absurd behind (by decide)
    · have found : findReads writtenWord true =
          [⟨writtenArray, storedByte, .constant ⟨32, 0⟩⟩, ⟨storedArray, .null, .constant ⟨32, 1⟩⟩,
            ⟨writtenArray, storedByte, .constant ⟨32, 1⟩⟩] := by
        decide
      rw [found] at member
      rw [if_neg]
      rintro ⟨isStored, rfl⟩
      simp only [mem_cons, not_mem_nil, or_false] at member
      obtain rfl | rfl | rfl := member
      · exact absurd isStored (by decide)
      · exact absurd (reports _ rfl) (by decide)
      · exact absurd isStored (by decide)
  · refine (reported_determines_value true writtenWord fun root i behind => ?_).2 (fun root member i _ => ?_) 16
    · rw [if_pos (.inr behind)]
    · have found : findSymbolicObjects true writtenWord = [storedArray, writtenArray] := by
        decide
      rw [found] at member
      simp only [mem_cons, not_mem_nil, or_false] at member
      obtain rfl | rfl := member
      · rw [if_pos (.inl (by decide))]
      · rw [if_pos (.inl (by decide))]

end Completeness

end NeuroMerge.Symbolic
