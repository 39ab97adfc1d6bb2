import Grafast.Dag.Plan
import Grafast.Graph.Redirect
import Mathlib.Data.List.Sigma

namespace Grafast

namespace Plan

variable {K : Type}

-- A step that is registered and has not been removed.
def Live (p : Plan K) (r : Ref) : Prop :=
  r ∈ p.steps ∧ p.stepId r ∉ p.deadIds

def DependsOn (p : Plan K) (r d : Ref) : Prop :=
  d ∈ p.dependencies r

section Projections

variable {p : Plan K} {r s : Ref} {id : Option Nat} {edges : List (Ref × Nat)}

@[simp]
theorem setIndex_dependencies : (p.setIndex id edges).dependencies = p.dependencies :=
  rfl

@[simp]
theorem setIndex_stepId : (p.setIndex id edges).stepId = p.stepId :=
  rfl

@[simp]
theorem addEdge_dependencies {e : Ref × Nat} : (p.addEdge id e).dependencies = p.dependencies :=
  rfl

@[simp]
theorem addEdge_stepId {e : Ref × Nat} : (p.addEdge id e).stepId = p.stepId :=
  rfl

@[simp]
theorem setIndex_index :
    (p.setIndex id edges).dependentsIndex = Function.update p.dependentsIndex id edges :=
  rfl

@[simp]
theorem addEdge_index {e : Ref × Nat} : (p.addEdge id e).dependentsIndex =
    Function.update p.dependentsIndex id (p.dependentsIndex id ++ [e]) :=
  rfl

@[simp]
theorem modify_index {f : StepObject K → StepObject K} :
    (p.modify r f).dependentsIndex = p.dependentsIndex :=
  rfl

theorem modify_dependencies (f : StepObject K → StepObject K) :
    (p.modify r f).dependencies s =
      if r = s then p.heap[s]?.elim [] (fun o => (f o).dependencies) else p.dependencies s := by
  simp only [dependencies, modify, List.getElem?_modify]
  split <;> cases p.heap[s]? <;> rfl

theorem modify_stepId (f : StepObject K → StepObject K) :
    (p.modify r f).stepId s =
      if r = s then p.heap[s]?.bind (fun o => (f o).id) else p.stepId s := by
  simp only [stepId, modify, List.getElem?_modify]
  split <;> cases p.heap[s]? <;> rfl

theorem modify_kind {f : StepObject K → StepObject K} (h : ∀ o, (f o).kind = o.kind) :
    (p.modify r f).kind = p.kind := by
  funext s
  simp only [kind, modify, List.getElem?_modify]
  cases p.heap[s]? <;> simp
  split <;> simp [h]

@[simp]
theorem setId_dependencies {n : Nat} : (p.setId r n).dependencies = p.dependencies := by
  funext s
  rw [setId, modify_dependencies]
  split <;> rfl

theorem setId_stepId {n : Nat} (h : r < p.heap.length) :
    (p.setId r n).stepId = Function.update p.stepId r (some n) := by
  funext s
  rw [setId, modify_stepId]
  by_cases hs : r = s
  case pos => simp [← hs, h]
  case neg => simp [hs, Function.update_of_ne (Ne.symm hs)]

theorem dependencies_of_le (h : p.heap.length ≤ r) : p.dependencies r = [] := by
  simp [dependencies, List.getElem?_eq_none h]

end Projections

-- The plan as a graph: everything but the flags of its steps.
@[ext]
structure View (K : Type) where
  length       : Nat
  kind         : Ref → Option K
  dependencies : Ref → List Ref
  stepId       : Ref → Option Nat
  steps        : List Ref
  seen         : List Ref
  index        : Option Nat → List (Ref × Nat)
  deadIds      : List (Option Nat)
  replacements : List (Ref × Ref)

def view (p : Plan K) : View K where
  length       := p.heap.length
  kind         := p.kind
  dependencies := p.dependencies
  stepId       := p.stepId
  steps        := p.steps
  seen         := p.seen
  index        := p.dependentsIndex
  deadIds      := p.deadIds
  replacements := p.sideReplacements

-- The edges of `l` that lead to steps with the given id, as entries of the index for `r`.
def edgesTo (stepId : Ref → Option Nat) (r : Ref) (l : List (Ref × Nat)) (id : Option Nat) :
    List (Ref × Nat) :=
  (l.filter (stepId ·.fst == id)).map fun e => (r, e.snd)

theorem mem_edgesTo {stepId : Ref → Option Nat} {r : Ref} {l : List (Ref × Nat)} {id : Option Nat}
    {e : Ref × Nat} :
    e ∈ edgesTo stepId r l id ↔ e.fst = r ∧ ∃ d, (d, e.snd) ∈ l ∧ stepId d = id := by
  simp only [edgesTo, List.mem_map, List.mem_filter, beq_iff_eq, Prod.exists, Prod.ext_iff]
  grind

theorem edgesTo_cons {stepId : Ref → Option Nat} {r : Ref} {l : List (Ref × Nat)} {id : Option Nat}
    {e : Ref × Nat} : edgesTo stepId r (e :: l) id =
      if stepId e.fst = id then (r, e.snd) :: edgesTo stepId r l id else edgesTo stepId r l id := by
  simp only [edgesTo, List.filter_cons, beq_iff_eq]
  split <;> rfl

theorem edgesTo_nodup {stepId : Ref → Option Nat} {r : Ref} {ds : List Ref} {id : Option Nat} :
    (edgesTo stepId r ds.zipIdx id).Nodup := by
  apply List.Nodup.of_map Prod.snd
  have h := (List.filter_sublist (l := ds.zipIdx) (p := (stepId ·.fst == id))).map Prod.snd
  rw [edgesTo, List.map_map]
  exact h.nodup (List.nodup_zipIdx_map_snd ds)

theorem foldl_link {p : Plan K} {r : Ref} (l : List (Ref × Nat)) :
    (l.foldl (link r) p).view = { p.view with
      index := fun id => p.dependentsIndex id ++ edgesTo p.stepId r l id } := by
  induction l generalizing p
  case nil => simp [edgesTo, view]
  case cons e l hi =>
    rw [List.foldl_cons, hi]
    ext1 <;> try rfl
    funext id
    by_cases h : p.stepId e.fst = id
    case pos => simp [link, edgesTo, h]
    case neg => simp [link, edgesTo, h, Function.update_of_ne (Ne.symm h)]

theorem enroll_view {p : Plan K} {r : Ref} (hr : r < p.heap.length) (hd : r ∉ p.dependencies r) :
    (p.enroll r).view = { p.view with
      stepId := Function.update p.stepId r (some p.steps.length)
      steps  := p.steps ++ [r]
      seen   := r :: p.seen
      index  := fun id => p.dependentsIndex id ++ edgesTo p.stepId r (p.dependencies r).zipIdx id }
    := by
  -- The new step is none of its own dependencies, so their ids are those of `p`.
  have he (id : Option Nat) :
      edgesTo (p.setId r p.steps.length).stepId r (p.dependencies r).zipIdx id =
        edgesTo p.stepId r (p.dependencies r).zipIdx id := by
    unfold edgesTo
    congr 1
    apply List.filter_congr
    intro e he
    have hm := List.fst_mem_of_mem_zipIdx he
    have hne : e.fst ≠ r := fun hc => hd (hc ▸ hm)
    rw [setId_stepId hr, Function.update_of_ne hne]
  rw [enroll, foldl_link]
  ext1
  case length       => simp [view, setId, modify]
  case kind         => exact modify_kind fun _ => rfl
  case dependencies => exact setId_dependencies
  case stepId       => exact setId_stepId hr
  case index        =>
    funext id
    show _ ++ edgesTo _ r ((p.setId r _).dependencies r).zipIdx id = _
    rw [setId_dependencies]
    exact congrArg _ (he id)
  all_goals rfl

theorem repoint_dependencies {p : Plan K} {survivor : Ref} {e : Ref × Nat} :
    (repoint survivor p e).dependencies =
      Function.update p.dependencies e.fst ((p.dependencies e.fst).set e.snd survivor) := by
  funext s
  rw [repoint, addEdge_dependencies, modify_dependencies]
  split
  case isTrue h =>
    subst h
    rw [Function.update_self, dependencies]
    cases p.heap[e.fst]? <;> rfl
  case isFalse h => rw [Function.update_of_ne (Ne.symm h)]

theorem repoint_stepId {p : Plan K} {survivor : Ref} {e : Ref × Nat} :
    (repoint survivor p e).stepId = p.stepId := by
  funext s
  rw [repoint, addEdge_stepId, modify_stepId]
  split <;> rfl

-- Moving edges onto the survivor changes the dependencies at just these edges.
theorem foldl_repoint {p : Plan K} (survivor : Ref) (moved : List (Ref × Nat)) :
    (moved.foldl (repoint survivor) p).view = { p.view with
      dependencies := fun r => (p.dependencies r).mapIdx fun i d =>
        if (r, i) ∈ moved then survivor else d
      index := Function.update p.dependentsIndex (p.stepId survivor)
        (p.dependentsIndex (p.stepId survivor) ++ moved) } := by
  induction moved generalizing p
  case nil => 
    ext1 <;> try rfl
    case dependencies =>
      funext r
      apply List.ext_getElem?
      simp [view]
    case index => simp [view]
  case cons e moved hi =>
    rw [List.foldl_cons, hi]
    ext1 <;> try rfl
    case length => simp [view, repoint, modify, addEdge, setIndex]
    case kind => exact modify_kind fun _ => rfl
    case dependencies =>
      funext r
      apply List.ext_getElem?
      intro i
      simp only [List.getElem?_mapIdx, repoint_dependencies, List.mem_cons]
      by_cases hr : r = e.fst
      case neg => simp [hr, Prod.ext_iff]
      case pos =>
        subst hr
        rw [Function.update_self, List.getElem?_set]
        by_cases he : e.snd = i
        case pos => 
          subst he
          by_cases hl : e.snd < (p.dependencies e.fst).length <;> simp [hl]
        case neg => simp [he, Prod.ext_iff, Ne.symm he]
    case stepId => exact repoint_stepId
    case index =>
      simp only [repoint_stepId]
      simp [repoint]

theorem foldl_unlink {p : Plan K} (dead : Ref) (l : List (Ref × Nat)) :
    (l.foldl (unlink dead) p).view = { p.view with
      index := fun id => (p.dependentsIndex id).filter (!(edgesTo p.stepId dead l id).contains ·) } := by
  induction l generalizing p
  case nil => simp [view, edgesTo]
  case cons e l hi =>
    rw [List.foldl_cons, hi]
    ext1 <;> try rfl
    funext id
    simp only [unlink, setIndex_stepId, setIndex_index]
    by_cases h : p.stepId e.fst = id
    case pos =>
      rw [h, Function.update_self, List.filter_filter]
      refine List.filter_congr fun x _ => ?_
      rw [Bool.eq_iff_iff]
      simp [edgesTo_cons, h, and_comm]
    case neg => 
      rw [Function.update_of_ne (Ne.symm h)]
      simp [edgesTo_cons, h]

-- The dependencies after the edges into `dead` have been moved.
def moved (p : Plan K) (dead survivor : Ref) (r : Ref) : List Ref :=
  (p.dependencies r).mapIdx fun i d =>
    if (r, i) ∈ p.dependentsIndex (p.stepId dead) then survivor else d

theorem eradicate_view {p : Plan K} {dead survivor : Ref} (h : dead ≠ survivor)
    (hid : p.stepId dead ≠ p.stepId survivor) :
    (p.eradicate dead survivor).view = { p.view with
      dependencies := p.moved dead survivor
      index := fun id =>
        (if id = p.stepId survivor then
            p.dependentsIndex id ++ p.dependentsIndex (p.stepId dead)
          else if id = p.stepId dead then [] else p.dependentsIndex id).filter
          (!(edgesTo p.stepId dead (p.moved dead survivor dead).zipIdx id).contains ·)
      deadIds := p.stepId dead :: p.deadIds } := by
  have hr := foldl_repoint (p := p.setIndex (p.stepId dead) []) survivor
    (p.dependentsIndex (p.stepId dead))
  have hd := congrArg View.dependencies hr
  have hs := congrArg View.stepId hr
  have hx := congrArg View.index hr
  simp only [view, setIndex_dependencies, setIndex_stepId, setIndex_index,
    Function.update_of_ne hid.symm] at hd hs hx
  simp only [eradicate, h, if_false]
  -- The edges of `dead` that are unlinked are those that it has after the move.
  have hu := foldl_unlink dead
    (((p.dependentsIndex (p.stepId dead)).foldl (repoint survivor)
      (p.setIndex (p.stepId dead) [])).dependencies dead).zipIdx
    (p := (p.dependentsIndex (p.stepId dead)).foldl (repoint survivor)
      (p.setIndex (p.stepId dead) []))
  have hl := congrArg View.length hr
  have hk := congrArg View.kind hr
  have hst := congrArg View.steps hr
  have hse := congrArg View.seen hr
  have hde := congrArg View.deadIds hr
  have hre := congrArg View.replacements hr
  ext1
  case length       => exact (congrArg View.length hu).trans hl
  case kind         => exact (congrArg View.kind hu).trans hk
  case dependencies => exact (congrArg View.dependencies hu).trans hd
  case stepId       => exact (congrArg View.stepId hu).trans hs
  case steps        => exact (congrArg View.steps hu).trans hst
  case seen         => exact (congrArg View.seen hu).trans hse
  case index        =>
    refine (congrArg View.index hu).trans ?_
    funext id
    simp only [hx, hd, hs, Function.update_apply]
    split <;> simp_all [moved]
  case replacements => exact (congrArg View.replacements hu).trans hre
  case deadIds      =>
    refine congrArg₂ List.cons ?_ ((congrArg View.deadIds hu).trans hde)
    exact congrFun ((congrArg View.stepId hu).trans hs) dead

end Plan

end Grafast
