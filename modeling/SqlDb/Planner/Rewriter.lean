/-
  THE CONDITION REWRITER  (planner/rewriter.cpp).

  A WHERE is rewritten in five passes before a plan is made of it:

  * `pushdownNot`: NOT moves down to the leaves, by De Morgan and by flipping operators;
  * `flatten`: nested ANDs (ORs) become one left-deep chain;
  * `foldConstants`: repeated values leave an IN list, and an IN with one value is a comparison;
  * `deduplicate`: of terms with the same type and TEXT only the first stays;
  * `simplify`: an OR among the terms of an AND is left out if the text of another term occurs
    ANYWHERE in it (and dually), and equalities of one column under an OR become an IN.

  Pointers are `Option`: a rebuilt junction without terms is a null pointer, and following one is a
  `Crash`.  The passes that recurse into the terms of a junction are well-founded; each has its
  equation as a lemma (`flatten_junction`, ...), and `terms_induction` is the matching induction.
-/
import SqlDb.SqlTypes.Condition

namespace SqlDb.Plan

open Sql

/-- What a C++ program must not do. -/
inductive Crash
  | nullDereference
deriving DecidableEq

abbrev ConditionPtr := Option Condition

def deref : ConditionPtr → Except Crash Condition
  | none => .error .nullDereference
  | some c => .ok c

/-! ## Common parts -/

/-- Equal as far as type and text go. -/
def sameNode (a b : Condition) : Bool := a.type = b.type && a.toText = b.toText

/-- The terms of a junction, through nested junctions of the same connective. -/
def collectSameOp (op : Junction) : Condition → List Condition
  | .junction o left right =>
    if o = op then collectSameOp op left ++ collectSameOp op right else [.junction o left right]
  | c => [c]

variable (op : Junction)

/-- `((a AND b) AND c) AND d`; null pointers are passed over. -/
def rebuild (children : List ConditionPtr) : ConditionPtr :=
  children.foldl
    (fun result child =>
      match result, child with
      | result, none => result
      | none, some c => some c
      | some r, some c => some (.junction op r c))
    none

/-- Some node of the tree is the same as `target`. -/
def treeContains (target : Condition) : Condition → Bool
  | .junction op left right =>
    sameNode (.junction op left right) target || treeContains target left || treeContains target right
  | .not child => sameNode (.not child) target || treeContains target child
  | c => sameNode c target

theorem sizeOf_of_mem_collect {op : Junction} {c d : Condition} (h : d ∈ collectSameOp op c) :
    sizeOf d ≤ sizeOf c := by
  induction c with
  | compare | inList | not => exact Nat.le_of_eq (congrArg sizeOf (List.mem_singleton.mp h))
  | junction o left right ihl ihr =>
    unfold collectSameOp at h
    split at h
    · rcases List.mem_append.mp h with h | h
      · exact (ihl h).trans (by rw [Condition.junction.sizeOf_spec]; omega)
      · exact (ihr h).trans (by rw [Condition.junction.sizeOf_spec]; omega)
    · exact Nat.le_of_eq (congrArg sizeOf (List.mem_singleton.mp h))

/-- The terms of a junction are smaller than the junction. -/
theorem sizeOf_term {op : Junction} {left right d : Condition}
    (h : d ∈ collectSameOp op (.junction op left right)) :
    sizeOf d < sizeOf (Condition.junction op left right) := by
  unfold collectSameOp at h
  rw [if_pos rfl] at h
  rcases List.mem_append.mp h with h | h
  · exact (sizeOf_of_mem_collect h).trans_lt (by rw [Condition.junction.sizeOf_spec]; omega)
  · exact (sizeOf_of_mem_collect h).trans_lt (by rw [Condition.junction.sizeOf_spec]; omega)

/-- Induction over the terms of junctions. -/
theorem terms_induction {motive : Condition → Prop}
    (compare : ∀ column op value, motive (.compare column op value))
    (inList : ∀ column isNotIn values, motive (.inList column isNotIn values))
    (junction : ∀ op left right,
      (∀ c ∈ collectSameOp op (.junction op left right), motive c) → motive (.junction op left right))
    (not : ∀ child, motive child → motive (.not child)) (c : Condition) : motive c := by
  match c with
  | .compare column op value => exact compare column op value
  | .inList column isNotIn values => exact inList column isNotIn values
  | .not child => exact not child (terms_induction compare inList junction not child)
  | .junction op left right =>
    refine junction op left right fun d hd => ?_
    exact terms_induction compare inList junction not d
termination_by sizeOf c
decreasing_by
  · simp
  · exact sizeOf_term hd

/-! ## The passes -/

def pushdownNot : Condition → Bool → Condition
  | .not child, negated => pushdownNot child (!negated)
  | .junction op left right, negated =>
    .junction (if negated then op.dual else op) (pushdownNot left negated) (pushdownNot right negated)
  | .compare column op value, negated =>
    if !negated then .compare column op value
    else if op.flip = .unknown then .not (.compare column op value)
    else .compare column op.flip value
  | .inList column isNotIn values, negated =>
    if !negated then .inList column isNotIn values else .inList column (!isNotIn) values

def flatten : Condition → ConditionPtr
  | .junction op left right =>
    rebuild op <| (collectSameOp op (.junction op left right)).attach.map fun ⟨c, _⟩ => flatten c
  | .not child => (flatten child).map .not
  | .compare column op value => some (.compare column op value)
  | .inList column isNotIn values => some (.inList column isNotIn values)
termination_by c => sizeOf c
decreasing_by
  · exact sizeOf_term (by assumption)
  · simp

/-- The values without those that are equal to an earlier one. -/
def distinctValues (values : List Value) : List Value :=
  values.foldl (fun kept v => if kept.any (fun k => k.eq v) then kept else kept ++ [v]) []

def foldConstants : Condition → Condition
  | .junction op left right => .junction op (foldConstants left) (foldConstants right)
  | .not child => .not (foldConstants child)
  | .inList column isNotIn values =>
    match distinctValues values with
    | [v] =>
      if v.isNull then .inList column isNotIn [v]
      else .compare column (if isNotIn then .ne else .eq) v
    | vs => .inList column isNotIn vs
  | c => c

def isDuplicate (rewritten : ConditionPtr) : List ConditionPtr → Except Crash Bool
  | [] => .ok false
  | kept :: rest => do
    if sameNode (← deref kept) (← deref rewritten) then return true
    isDuplicate rewritten rest

/-- Of terms that are the same the first one stays. -/
def keepFirst (children : List ConditionPtr) : List ConditionPtr → Except Crash (List ConditionPtr)
  | [] => .ok children
  | rewritten :: rest => do
    let duplicate ← isDuplicate rewritten children
    keepFirst (if duplicate then children else children ++ [rewritten]) rest

def deduplicate : Condition → Except Crash ConditionPtr
  | .junction op left right => do
    let terms ← ((collectSameOp op (.junction op left right)).attach.map
      fun ⟨c, _⟩ => deduplicate c).mapM id
    return rebuild op (← keepFirst [] terms)
  | .not child => return (← deduplicate child).map .not
  | .compare column op value => return some (.compare column op value)
  | .inList column isNotIn values => return some (.inList column isNotIn values)
termination_by c => sizeOf c
decreasing_by
  · exact sizeOf_term (by assumption)
  · simp

/-- The term at place `i` is a junction of the other connective, and contains another term. -/
def absorbed (children : List Condition) (i : Nat) (c : Condition) : Bool :=
  c.type = .junction op.dual && (children.eraseIdx i).any fun d => treeContains d c

/-- All terms are judged before any is left out. -/
def notAbsorbed (children : List Condition) : List Condition :=
  (children.zipIdx.filter fun p => !absorbed op children p.2 p.1).map Prod.fst

/-- The value that a term requires of `column`. -/
def equalTo (column : Identifier) : Condition → Option Value
  | .compare other .eq value => if other.eq column then some value else none
  | _ => none

/-- The column and the value of an equality. -/
def headEq : Condition → Option (Identifier × Value)
  | .compare column .eq value => some (column, value)
  | _ => none

/-- Equalities of one column become an IN, which stands before all terms that stay as they are: the
    new terms and the others. -/
def mergeEqs : List Condition → List Condition × List Condition
  | [] => ([], [])
  | c :: rest =>
    match headEq c with
    | none => ((mergeEqs rest).1, c :: (mergeEqs rest).2)
    | some (column, value) =>
      let group := rest.filterMap (equalTo column)
      if group = [] then ((mergeEqs rest).1, c :: (mergeEqs rest).2)
      else
        -- the group is consumed, and the loop goes on with the others
        let result := mergeEqs (rest.filter fun c => (equalTo column c).isNone)
        (.inList column false (value :: group) :: result.1, result.2)
termination_by cs => cs.length
decreasing_by
  all_goals first
    | exact Nat.lt_succ_self _
    | simpa using Nat.lt_succ_of_le (List.length_filter_le _ rest)

/-- The terms that a junction is rebuilt from. -/
def simplifyTerms (children : List Condition) : List Condition :=
  let kept := notAbsorbed op children
  match op with
  | .and => kept
  | .or => (mergeEqs kept).1 ++ (mergeEqs kept).2

/-- What is left of a NOT. -/
def simplifyNot : Condition → Condition
  | .not child => child
  | .inList column isNotIn values => .inList column (!isNotIn) values
  | c => .not c

def simplify : Condition → Except Crash ConditionPtr
  | .junction op left right => do
    let pointers ← ((collectSameOp op (.junction op left right)).attach.map
      fun ⟨c, _⟩ => simplify c).mapM id
    -- the loop that judges the terms asks each of them for its type
    let children ← pointers.mapM deref
    return rebuild op ((simplifyTerms op children).map some)
  | .not child => return (← simplify child).map simplifyNot
  | .compare column op value => return some (.compare column op value)
  | .inList column isNotIn values => return some (.inList column isNotIn values)
termination_by c => sizeOf c
decreasing_by
  · exact sizeOf_term (by assumption)
  · simp

def rewriteConditionTree : ConditionPtr → Except Crash ConditionPtr
  | none => .ok none
  | some root => do
    let flat := flatten (pushdownNot root false)
    match flat.map foldConstants with
    | none => return none
    | some folded =>
      match ← deduplicate folded with
      | none => return none
      | some distinct => simplify distinct

/-! ## Their equations -/

theorem flatten_junction (left right : Condition) :
    flatten (.junction op left right)
      = rebuild op ((collectSameOp op (.junction op left right)).map flatten) := by
  rw [flatten, List.attach_map_val]

theorem deduplicate_junction (left right : Condition) :
    deduplicate (.junction op left right) = do
      let terms ← ((collectSameOp op (.junction op left right)).map deduplicate).mapM id
      return rebuild op (← keepFirst [] terms) := by
  rw [deduplicate, List.attach_map_val]

theorem mergeEqs_cons (c : Condition) (rest : List Condition) :
    mergeEqs (c :: rest) =
      match headEq c with
      | none => ((mergeEqs rest).1, c :: (mergeEqs rest).2)
      | some (column, value) =>
        if rest.filterMap (equalTo column) = [] then ((mergeEqs rest).1, c :: (mergeEqs rest).2)
        else
          (.inList column false (value :: rest.filterMap (equalTo column))
            :: (mergeEqs (rest.filter fun c => (equalTo column c).isNone)).1,
          (mergeEqs (rest.filter fun c => (equalTo column c).isNone)).2) := by
  rw [mergeEqs]

theorem headEq_eq_some {c : Condition} {column : Identifier} {value : Value}
    (h : headEq c = some (column, value)) : c = .compare column .eq value := by
  unfold headEq at h
  split at h
  · cases h
    rfl
  · simp at h

theorem simplify_junction (left right : Condition) :
    simplify (.junction op left right) = do
      let pointers ← ((collectSameOp op (.junction op left right)).map simplify).mapM id
      let children ← pointers.mapM deref
      return rebuild op ((simplifyTerms op children).map some) := by
  rw [simplify, List.attach_map_val]

end SqlDb.Plan
