import NeuroMerge.Classifier.Label
import Mathlib.Data.List.Dedup
import Mathlib.Data.List.Infix

/-!
# Splitting the graphs

How the files of the graphs are copied into the three directories of a dataset, one by one
or by the program that they belong to.
-/

namespace NeuroMerge.Classifier

def TRAIN_SET_RATIO : ℚ := Binary64.round (80 / 100)
def VAL_SET_RATIO : ℚ := Binary64.round (10 / 100)
def TEST_SET_RATIO : ℚ := Binary64.round (10 / 100)

def valEnd : ℚ := Binary64.round ( TRAIN_SET_RATIO + VAL_SET_RATIO)

def ratio (i n : Nat) : ℚ := Binary64.round (Binary64.round i / Binary64.round n)

inductive Part where
  | train
  | val
  | test
  deriving DecidableEq

inductive MergeGraphVariant where
  | ALL_VARS
  | ONLY_MERGED_VARS
  deriving DecidableEq

def isCollected (merge_graph_variant : MergeGraphVariant) (graph_fname : List Char) : Bool :=
  let excluded := match merge_graph_variant with
    | .ALL_VARS => ['o', 'n', 'l', 'y', '-', 'm', 'e', 'r', 'g', 'e', 'd']
    | .ONLY_MERGED_VARS => ['a', 'l', 'l']
  ['.', 'p', 'b'] <:+ graph_fname ∧ ¬ excluded <:+: graph_fname

/-- The record that belongs to a graph. `load` opens and loads the one with an id. -/
def mergeRecord (load : List Char → Except PyError PyObject) (graph_fname : List Char) :
    Except PyError PyObject :=
  match (graph_fname.splitOn '-')[1]? with
  | none => throw .indexError
  | some merge_id => load merge_id

def basename (path : List Char) : List Char := (path.splitOn '/').getLastD []

def removeExtension : List Char → List Char
  | '.' :: 'b' :: 'c' :: rest => removeExtension rest
  | c :: rest => c :: removeExtension rest
  | [] => []

def get_program_name (merge_record : PyObject) : Except PyError (List Char) := do
  match ← merge_record.getItem MergeJsonField.IR_FILENAME.key with
  | .str ir_fname => pure (removeExtension (basename ir_fname.toList))
  | _ => throw .typeError

def get_merge_point_fname (merge_record : PyObject) : Except PyError (List Char) := do
  match ← merge_record.getItem MergeJsonField.MERGE_POINT_ADDR.key with
  | .str merge_point_addr => pure (((basename merge_point_addr.toList).splitOn '-').headD [])
  | _ => throw .typeError

def counts (labels : List MergeDecision) : List Nat := labels.dedup.map labels.count

section OneByOne

/-- What has been copied where, and the labels counted in `val_count` and `test_count`. -/
structure SplitLoop where
  copies : List (Part × List Char)
  count : Part → MergeDecision → Nat

namespace SplitLoop

def copy (loop : SplitLoop) (part : Part) (graph_fname : List Char) : SplitLoop :=
  { loop with copies := loop.copies ++ [(part, graph_fname)] }

def increment (loop : SplitLoop) (part : Part) (label : MergeDecision) : SplitLoop :=
  { loop with
    count := fun part' label' =>
      if part' = part ∧ label' = label then loop.count part label + 1 else loop.count part' label' }

end SplitLoop

/-- A graph for the validation or the test set. With balancing it goes to the training set
if there are enough of its label, and `continue` goes on with the next graph. -/
def place (balance : Bool) (part : Part) (limit : Int) (graph_fname : List Char)
    (loop : SplitLoop) : Except PyError (Bool × SplitLoop) :=
  if balance then do
    -- The label of a file name is asked for, not that of a record.
    let label ← get_merge_label (.str (String.ofList graph_fname))
    let loop := loop.increment part label
    if limit < loop.count part label then
      pure (true, loop.copy .train graph_fname)
    else
      pure (false, loop.copy part graph_fname)
  else
    pure (false, loop.copy part graph_fname)

def balanceLimit (smaller_ratio part_ratio : ℚ) (n : Nat) : Int :=
  ⌊Binary64.round (Binary64.round (smaller_ratio * part_ratio) * Binary64.round n)⌋

def visitGraph (balance : Bool) (smaller_ratio : ℚ) (n : Nat) (loop : SplitLoop)
    (entry : List Char × Nat) : Except PyError SplitLoop := do
  let (graph_fname, i) := entry
  let loop := if ratio i n ≤ TRAIN_SET_RATIO then loop.copy .train graph_fname else loop
  let (continued, loop) ←
    if TRAIN_SET_RATIO < ratio i n ∧ ratio i n ≤ valEnd then
      place balance .val (balanceLimit smaller_ratio VAL_SET_RATIO n) graph_fname loop
    else
      pure (false, loop)
  if continued = false ∧ valEnd ≤ ratio i n then do
    let (_, loop) ← place balance .test (balanceLimit smaller_ratio TEST_SET_RATIO n) graph_fname loop
    pure loop
  else
    pure loop

def smallerRatio (stats : List MergeDecision) : ℚ :=
  Binary64.round (((counts stats).min?.getD 0 : Nat) / ((counts stats).sum : Nat))

/-- What is copied, for the files of the directory and a shuffling of lists. -/
def split_dataset (balance : Bool) (merge_graph_variant : MergeGraphVariant)
    (listing : List (List Char)) (shuffle : List (List Char) → List (List Char))
    (load : List Char → Except PyError PyObject) : Except PyError (List (Part × List Char)) := do
  let graph_fnames := shuffle (listing.filter (isCollected merge_graph_variant))
  let stats ← graph_fnames.mapM fun graph_fname => do
    get_merge_label (← mergeRecord load graph_fname)
  let loop ← graph_fnames.zipIdx.foldlM
    (visitGraph balance (smallerRatio stats) graph_fnames.length) ⟨[], fun _ _ => 0⟩
  pure loop.copies

end OneByOne

section ByName

/-- What has been copied where, and the labels counted for each name. -/
structure NameLoop where
  copies : List (Part × List Char)
  count : Part → List Char → MergeDecision → Nat

namespace NameLoop

def copy (loop : NameLoop) (part : Part) (graph_fname : List Char) : NameLoop :=
  { loop with copies := loop.copies ++ [(part, graph_fname)] }

def increment (loop : NameLoop) (part : Part) (name : List Char) (label : MergeDecision) :
    NameLoop :=
  { loop with
    count := fun part' name' label' =>
      if part' = part ∧ name' = name ∧ label' = label then loop.count part name label + 1
      else loop.count part' name' label' }

end NameLoop

/-- A graph of a name in the validation or the test set. With balancing it is left out if all
graphs of the name have one label or if there are enough of its label. -/
def placeByName (balance : Bool) (part : Part) (stats : List Char → List MergeDecision)
    (name graph_fname : List Char) (merge_record : PyObject) (loop : NameLoop) :
    Except PyError NameLoop :=
  if balance then do
    let label ← get_merge_label merge_record
    let loop := loop.increment part name label
    if (counts (stats name)).length = 1 then
      pure loop
    else if (counts (stats name)).min?.getD 0 < loop.count part name label then
      pure loop
    else
      pure (loop.copy part graph_fname)
  else
    pure (loop.copy part graph_fname)

def partNames (inPart : ℚ → Bool) (names : List (List Char)) : List (List Char) :=
  (names.zipIdx.filter fun entry => inPart (ratio entry.2 names.length)).map Prod.fst

def train_names : List (List Char) → List (List Char) :=
  partNames fun r => r ≤ TRAIN_SET_RATIO

def val_names : List (List Char) → List (List Char) :=
  partNames fun r => TRAIN_SET_RATIO < r ∧ r ≤ valEnd

def test_names : List (List Char) → List (List Char) :=
  partNames fun r => valEnd ≤ r

variable (balance by_merge_point_file : Bool) (load : List Char → Except PyError PyObject)

def graphName (merge_record : PyObject) : Except PyError (List Char) :=
  if by_merge_point_file then get_merge_point_fname merge_record else get_program_name merge_record

/-- The body of the first loop, which collects the names and the labels. -/
def nameAndLabel (graph_fname : List Char) : Except PyError (List Char × MergeDecision) := do
  let merge_record ← mergeRecord load graph_fname
  let name ← graphName by_merge_point_file merge_record
  let label ← get_merge_label merge_record
  pure (name, label)

def visitGraphByName (names : List (List Char)) (stats : List Char → List MergeDecision)
    (loop : NameLoop) (graph_fname : List Char) : Except PyError NameLoop := do
  let merge_record ← mergeRecord load graph_fname
  let name ← graphName by_merge_point_file merge_record
  if name ∈ train_names names then
    if balance then
      let _ ← get_merge_label merge_record
    pure (loop.copy .train graph_fname)
  else if name ∈ val_names names then
    placeByName balance .val stats name graph_fname merge_record loop
  else if name ∈ test_names names then
    placeByName balance .test stats name graph_fname merge_record loop
  else
    pure loop

def partOf (names : List (List Char)) (name : List Char) : Option Part :=
  if name ∈ train_names names then some .train
  else if name ∈ val_names names then some .val
  else if name ∈ test_names names then some .test
  else none

/-- What is copied. `shuffleNames` puts the set of names into some order. -/
def split_dataset_by_name (merge_graph_variant : MergeGraphVariant) (debug : Bool)
    (listing : List (List Char)) (shuffle shuffleNames : List (List Char) → List (List Char)) :
    Except PyError (List (Part × List Char)) := do
  let graph_fnames := listing.filter (isCollected merge_graph_variant)
  let graph_fnames := shuffle (if debug then graph_fnames.take 1000 else graph_fnames)
  let pairs ← graph_fnames.mapM (nameAndLabel by_merge_point_file load)
  let stats (name : List Char) : List MergeDecision :=
    (pairs.filter fun pair => pair.1 = name).map Prod.snd
  let names := shuffleNames (pairs.map Prod.fst).dedup
  let loop ← graph_fnames.foldlM (visitGraphByName balance by_merge_point_file load names stats)
    ⟨[], fun _ _ _ => 0⟩
  pure loop.copies

end ByName

end NeuroMerge.Classifier
